import Verifyhash.Library.Paging
import Verifyhash.Registry.Pages
import Verifyhash.Registry.Theorems.Invariant

namespace Registry.State

variable {keccak256 : Bytes → Bytes32} {s : State}

def entry (s : State) (index : ℕ) : Bytes32 × Record :=
  (s.hashByIndex index, s.records <| s.hashByIndex index)

-- All records with their hashes, in insertion order.
def entries (s : State) : List (Bytes32 × Record) :=
  (List.range s.total).map s.entry

def entriesOf (s : State) (contributor : Address) : List (Bytes32 × Record) :=
  s.entries.filter fun (_, record) => record.contributor = contributor

-- A page as the list of its rows.
def rows : Except Error (List Bytes32 × List Record) → Except Error (List (Bytes32 × Record)) :=
  Except.map fun (contentHashes, records) => contentHashes.zip records

theorem rows_unzip {elems : List (Bytes32 × Record)} : rows (.ok elems.unzip) = .ok elems :=
  congrArg Except.ok <| List.zip_unzip elems

theorem clampedLength_eq : clampedLength owned start count = .ok (min count (owned - start)) := by
  rw [clampedLength]
  split_ifs with hs
  case pos =>
    rw [subUint256, if_pos hs.le]
    exact congrArg Except.ok <| by grind
  case neg => exact congrArg Except.ok <| by omega

section

variable {indices : List ℕ} {slot : ℕ → Except Error ℕ}
variable (h : ∀ i (hi : i < indices.length), slot i = .ok indices[i]) (ho : indices.length < UINT256)

include h ho

theorem readPosition_eq (hi : start + i < indices.length) :
    s.readPosition slot start i = .ok (s.entry indices[start + i]) := by
  rw [readPosition, addUint256, if_pos <| hi.trans ho]
  change (slot (start + i) >>= _) = _
  rw [h _ hi]
  rfl

-- A page is a window of the entries at the indices which the positions hold.
theorem readPage_eq :
    s.readPage indices.length slot start count =
      .ok (((indices.map s.entry).drop start).take count).unzip := by
  let len := min count (indices.length - start)
  have hr : (List.range len).mapM (s.readPosition slot start) =
      .ok ((List.range len).map fun i => s.entry <| indices.getD (start + i) 0) := by
    refine Fallible.mapM_eq_ok fun i hi => ?_
    have hi : start + i < indices.length := by
      have := List.mem_range.mp hi
      omega
    simp [readPosition_eq h ho hi, hi]
  have hw : ((List.range len).map fun i => s.entry <| indices.getD (start + i) 0) =
      ((indices.map s.entry).drop start).take count := by
    refine List.ext_getElem (by simp [len]) fun i hi _ => ?_
    have hi : start + i < indices.length := by
      simp only [List.length_map, List.length_range] at hi
      omega
    simp [hi]
  rw [readPage, clampedLength_eq]
  change ((List.range len).mapM (s.readPosition slot start) >>= _) = _
  rw [hr, hw]
  rfl

end

namespace Valid

variable (v : s.Valid)

include v

theorem entriesOf_eq : s.entriesOf a = (s.contributorIndices a).map s.entry := by
  rw [v.indices, entriesOf, entries, List.filter_map]
  rfl

theorem getRecords_eq (start count : ℕ) :
    s.getRecords start count = .ok ((s.entries.drop start).take count).unzip := by
  have hl : s.total = (List.range s.total).length := List.length_range.symm
  rw [getRecords, entries, hl, readPage_eq (by simp) (hl ▸ v.total_lt), ←hl]

theorem getRecordsByContributor_eq (start count : ℕ) :
    s.getRecordsByContributor a start count = .ok (((s.entriesOf a).drop start).take count).unzip := by
  rw [v.entriesOf_eq]
  exact readPage_eq (fun i hi => by simp [elemAt, hi]) <|
    (v.length_contributorIndices_le a).trans_lt v.total_lt

theorem nodup_entries : (s.entries.map Prod.fst).Nodup := by
  rw [entries, List.map_map]
  exact List.nodup_range.map_on fun i hi j hj h =>
    v.injective i (List.mem_range.mp hi) j (List.mem_range.mp hj) h

theorem mem_entries : (h, r) ∈ s.entries ↔ r.contributor ≠ 0 ∧ r = s.records h := by
  simp only [entries, entry, List.mem_map, List.mem_range, Prod.mk.injEq]
  constructor
  · rintro ⟨i, hi, rfl, rfl⟩
    exact ⟨v.recorded i hi, rfl⟩
  · rintro ⟨hr, rfl⟩
    have ⟨i, hi, he⟩ := v.indexed h hr
    exact ⟨i, hi, he, he ▸ rfl⟩

end Valid

-- What the paginated reads return in a state.
structure Paginated (s : State) : Prop where
  nodup         : (s.entries.map Prod.fst).Nodup
  mem           : ∀ h r, (h, r) ∈ s.entries ↔ r.contributor ≠ 0 ∧ r = s.records h
  page          : ∀ start count, s.getRecords start count =
    .ok ((s.entries.drop start).take count).unzip
  contributor   : ∀ a start count, s.getRecordsByContributor a start count =
    .ok (((s.entriesOf a).drop start).take count).unzip
  walk          : ∀ p ≥ 1, ∀ es,
    Paging.Walk (fun start => rows <| s.getRecords start p) p 0 es ↔ es = s.entries
  contributors  : ∀ a, ∀ p ≥ 1, ∀ es,
    Paging.Walk (fun start => rows <| s.getRecordsByContributor a start p) p 0 es ↔ es = s.entriesOf a

theorem Valid.toPaginated (v : s.Valid) : s.Paginated where
  nodup                  := v.nodup_entries
  mem _ _                := v.mem_entries
  page                   := v.getRecords_eq
  contributor _          := v.getRecordsByContributor_eq
  walk p hp _            := Paging.walk_iff (fun _ => v.getRecords_eq _ p ▸ rows_unzip) hp
  contributors _ p hp _  := Paging.walk_iff (fun _ => v.getRecordsByContributor_eq _ p ▸ rows_unzip) hp

-- In every run the pages cover the records exactly, and no read reverts.
theorem run_paginated (keccak256 : Bytes → Bytes32) (hs : ∀ tx ∈ txs, tx.sender ≠ 0) :
    (init.run keccak256 txs).Paginated :=
  Valid.init.run keccak256 hs |>.left.toPaginated

theorem run_paginated_alice : (init.run Keccak.keccak256 aliceClaims).Paginated :=
  run_paginated Keccak.keccak256 (by decide)

end Registry.State
