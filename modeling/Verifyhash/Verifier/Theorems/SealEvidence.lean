import Verifyhash.Cli.Evidence
import Verifyhash.Cli.Theorems.SealRoundTrip
import Verifyhash.Verifier.SealEvidence
import Verifyhash.Verifier.Theorems.Agreement

namespace Verifier.SealEvidence

open Hex Fallible Checks
open Cli (FileEntry SealedFile BuiltSeal sortByRel)

section

variable (keccak256 : Bytes → Bytes32)

-- What is hashed for the leaf of an entry whose path is encoded by the given bytes.
def leafInput (relBytes : Bytes) (e : FileEntry) : Bytes :=
  .ofBytes32 (keccak256 <| .ofAscii "verifyhash/dir-leaf/v1") ++ relBytes ++ [0x00] ++
    .ofBytes32 (keccak256 e.bytes)

def leafDigest (e : FileEntry) : Bytes32 :=
  keccak256 <| leafInput keccak256 (Unicode.bufferFrom e.relPath) e

-- The inputs which are hashed for the leaf of an entry by the two sealers.
def sealerInputs (toUtf8Bytes : JsString → Except JsString Bytes) (e : FileEntry) : List Bytes :=
  leafInput keccak256 (Unicode.bufferFrom e.relPath) e ::
    match toUtf8Bytes e.relPath with
    | .ok relBytes => [leafInput keccak256 relBytes e]
    | .error _     => []

-- The file which the free sealer lists for an entry.
def freeFile (e : FileEntry) : SealedFile where
  relPath     := e.relPath
  contentHash := hashBytes keccak256 e.bytes
  leaf        := hexlify <| leafDigest keccak256 e

end

variable {keccak256 : Bytes → Bytes32} {toUtf8Bytes : JsString → Except JsString Bytes} {sep : UInt16}
variable {S : List FileEntry} {e : FileEntry} {s : BuiltSeal}

-- What `_normalizeEntries` accepts.
structure Normalized (entries : List FileEntry) : Prop where
  nonempty  : ∀ e ∈ entries, e.relPath ≠ []
  canonical : ∀ e ∈ entries, e.relPath = toPosixRel e.relPath
  distinct  : (entries.map FileEntry.relPath).Nodup

theorem normalizeEntries_eq_ok : normalizeEntries S = .ok S' ↔
    S' = S ∧ S ≠ [] ∧ S.length ≤ SAMPLE_LIMIT ∧ Normalized S := by
  have hc (seen : List JsString) (e : FileEntry) : normalizeEntry seen e = .ok () ↔
      (e.relPath ≠ [] ∧ e.relPath = toPosixRel e.relPath) ∧ e.relPath ∉ seen := by
    simp only [normalizeEntry, bind_eq_ok, require_eq_ok]
    constructor
    · rintro ⟨_, hn, _, hp, hs⟩
      exact ⟨⟨hn, hp⟩, hs⟩
    · rintro ⟨⟨hn, hp⟩, hs⟩
      exact ⟨(), hn, (), hp, hs⟩
  simp only [normalizeEntries, bind_eq_ok, require_eq_ok, Keyed.each_eq_ok hc, pure_eq_ok]
  constructor
  case mp =>
    rintro ⟨_, hn, _, hl, _, ⟨h, hd, -⟩, rfl⟩
    exact ⟨rfl, hn, hl, fun e he => (h e he).left, fun e he => (h e he).right, hd⟩
  case mpr =>
    rintro ⟨rfl, hn, hl, h⟩
    exact ⟨(), hn, (), hl, (), ⟨fun e he => ⟨h.nonempty e he, h.canonical e he⟩, h.distinct, by simp⟩, rfl⟩

theorem Normalized.pathLeaf_eq (h : Normalized S) (he : e ∈ S) :
    pathLeaf keccak256 e.relPath (hashBytes keccak256 e.bytes) = .ok (hexlify <| leafDigest keccak256 e) := by
  have hd : Unicode.bufferFrom DIR_LEAF_DOMAIN_STR = .ofAscii "verifyhash/dir-leaf/v1" := by
    decide +kernel
  rw [pathLeaf, ←h.canonical e he, hashBytes, hexToBuf32_hexlify, ok_bind, DIR_LEAF_DOMAIN, hd]
  rfl

theorem rootOf_perm {l l' : List Bytes32} (hp : l.Perm l') : rootOf keccak256 l = rootOf keccak256 l' := by
  have hs := (List.perm_insertionSort (· ≤ ·) l).trans <| hp.trans (List.perm_insertionSort (· ≤ ·) l').symm
  have he := hs.eq_of_pairwise (fun _ _ _ _ => le_antisymm) (List.pairwise_insertionSort ..)
    (List.pairwise_insertionSort ..)
  rw [rootOf, he]
  rfl

variable (keccak256) in
-- The seal which the free sealer makes of entries.
def freeSeal (S : List FileEntry) : BuiltSeal where
  kind          := SEAL_KIND
  schemaVersion := SEAL_SCHEMA_VERSION
  note          := EVIDENCE_TRUST_NOTE
  root          := (rootOf keccak256 <| S.map <| leafDigest keccak256).map hexlify
  fileCount     := S.length
  files         := sortByRel SealedFile.relPath <| S.map <| freeFile keccak256
  header        := none

theorem Normalized.rootFromFlat_eq (h : Normalized S) (hn : S ≠ []) :
    rootFromFlat keccak256 ((sortByRel SealedFile.relPath <| S.map <| freeFile keccak256).map
      fun f => (f.relPath, f.contentHash)) =
        .ok ((rootOf keccak256 <| S.map <| leafDigest keccak256).map hexlify) := by
  let sorted := sortByRel FileEntry.relPath S
  have hp : sorted.Perm S := Cli.sortByRel_perm
  have hs : sortByRel SealedFile.relPath (S.map <| freeFile keccak256) = sorted.map (freeFile keccak256) :=
    (List.map_insertionSort _ _ (freeFile keccak256) S fun _ _ _ _ => Iff.rfl).symm
  have hn' : sorted.map (leafDigest keccak256) ≠ [] := fun hl =>
    hn <| by simpa [List.map_eq_nil_iff.mp hl] using hp.symm
  have hm : (sorted.map fun e => (e.relPath, hashBytes keccak256 e.bytes)).mapM (fun f =>
      pathLeaf keccak256 f.fst f.snd) = .ok ((sorted.map <| leafDigest keccak256).map hexlify) := by
    rw [List.map_map]
    exact mapM_map_eq_ok fun e he => h.pathLeaf_eq <| hp.mem_iff.mp he
  rw [hs, List.map_map, rootFromFlat]
  change (List.mapM (fun f : JsString × JsString => pathLeaf keccak256 f.fst f.snd)
    (sorted.map fun e => (e.relPath, hashBytes keccak256 e.bytes)) >>= _) = _
  rw [hm, ok_bind, rootFromLeaves_hexlify hn', rootOf_perm (hp.map _)]

theorem buildEvidenceSeal_eq (hn : S ≠ []) (hl : S.length ≤ SAMPLE_LIMIT) (h : Normalized S) :
    buildEvidenceSeal keccak256 S = .ok (freeSeal keccak256 S) := by
  have hm : S.mapM (sealFile keccak256) = .ok (S.map <| freeFile keccak256) := mapM_eq_ok fun e he => by
    rw [sealFile, h.pathLeaf_eq he]
    rfl
  simp only [buildEvidenceSeal, bind_eq_ok, normalizeEntries_eq_ok]
  refine ⟨S, ⟨rfl, hn, hl, h⟩, _, hm, _, h.rootFromFlat_eq hn, ?_⟩
  rw [Cli.sortByRel_perm.length_eq, List.length_map]
  rfl

theorem of_buildEvidenceSeal (h : buildEvidenceSeal keccak256 S = .ok s) :
    S ≠ [] ∧ Normalized S ∧ s = freeSeal keccak256 S := by
  have h' := h
  simp only [buildEvidenceSeal, bind_eq_ok] at h'
  obtain ⟨_, hs, -⟩ := h'
  obtain ⟨-, hn, hl, hnorm⟩ := normalizeEntries_eq_ok.mp hs
  exact ⟨hn, hnorm, Except.ok.inj <| h.symm.trans <| buildEvidenceSeal_eq hn hl hnorm⟩

section

-- What the leaf of an entry is in the seal of the producer.
theorem entryLeaf_eq (hc : Cli.toPosixRel sep e.relPath = e.relPath) (hr : toUtf8Bytes e.relPath = .ok relBytes) :
    Cli.entryLeaf keccak256 toUtf8Bytes sep e = hexlify (keccak256 <| leafInput keccak256 relBytes e) := by
  have hs : getBytes Cli.PATH_SEP = [0x00] := by decide +kernel
  have he : toUtf8Bytes (e.toEntry.renormalized sep).fst = .ok relBytes := by
    rwa [Cli.Entry.renormalized, FileEntry.toEntry, hc, hc]
  rw [Cli.entryLeaf, Cli.leaf_eq he, Cli.pathInput, cli_DIR_LEAF_DOMAIN, hs, FileEntry.toEntry, hashBytes, hashBytes,
    getBytes_hexlify]
  rfl

-- An entry which the two sealers treat alike.
structure SealedAlike (toUtf8Bytes : JsString → Except JsString Bytes) (sep : UInt16) (e : FileEntry) : Prop where
  canonical : Cli.toPosixRel sep e.relPath = e.relPath
  encodes   : toUtf8Bytes e.relPath = .ok (Unicode.bufferFrom e.relPath)
  own       : e.relPath ∉ Cli.inheritedMethods

theorem SealedAlike.sealable (h : SealedAlike toUtf8Bytes sep e) : Cli.Sealable toUtf8Bytes sep e :=
  ⟨h.canonical, ⟨_, h.encodes⟩, h.own⟩

theorem SealedAlike.toSealed_eq (h : SealedAlike toUtf8Bytes sep e) :
    e.toSealed keccak256 toUtf8Bytes sep = freeFile keccak256 e := by
  rw [FileEntry.toSealed, entryLeaf_eq h.canonical h.encodes]
  rfl

theorem rootOver_eq (h : ∀ e ∈ S, SealedAlike toUtf8Bytes sep e) :
    Cli.rootOver keccak256 toUtf8Bytes sep S = (rootOf keccak256 <| S.map <| leafDigest keccak256).map hexlify := by
  have hl : S.map (Cli.entryLeaf keccak256 toUtf8Bytes sep) = (S.map <| leafDigest keccak256).map hexlify := by
    rw [List.map_map]
    exact List.map_congr_left fun e he => entryLeaf_eq (h e he).canonical (h e he).encodes
  rw [Cli.rootOver, hl, sortedBytes_hexlify]
  rfl

theorem sealOver_eq (h : ∀ e ∈ S, SealedAlike toUtf8Bytes sep e) :
    Cli.sealOver keccak256 toUtf8Bytes sep S Cli.Evidence.SEAL_CFG = freeSeal keccak256 S := by
  have hf : S.map (FileEntry.toSealed keccak256 toUtf8Bytes sep) = S.map (freeFile keccak256) :=
    List.map_congr_left fun e he => (h e he).toSealed_eq
  rw [Cli.sealOver, rootOver_eq h, hf]
  rfl

theorem Normalized.toCli (h : Normalized S) : Cli.Normalized Cli.Evidence.SEAL_CFG S where
  nonempty   := h.nonempty
  unreserved := by simp [Cli.Evidence.SEAL_CFG]
  distinct   := h.distinct

-- Equal seals have equal leaves, so that the paths are encoded alike.
theorem sealedAlike_of_sealOver_eq (h : Normalized S) (hs : ∀ e ∈ S, Cli.Sealable toUtf8Bytes sep e)
    (c : CollisionFree keccak256 (S.flatMap <| sealerInputs keccak256 toUtf8Bytes))
    (heq : Cli.sealOver keccak256 toUtf8Bytes sep S Cli.Evidence.SEAL_CFG = freeSeal keccak256 S) :
    ∀ e ∈ S, SealedAlike toUtf8Bytes sep e := by
  intro e he
  obtain ⟨relBytes, hr⟩ := (hs e he).encodes
  have hm : e.toSealed keccak256 toUtf8Bytes sep ∈ (freeSeal keccak256 S).files := by
    rw [←heq]
    exact Cli.sortByRel_perm.mem_iff.mpr <| List.mem_map_of_mem he
  obtain ⟨e', he', hf⟩ := List.mem_map.mp <| Cli.sortByRel_perm.mem_iff.mp hm
  obtain rfl : e' = e := List.inj_on_of_nodup_map h.distinct he' he <| congrArg SealedFile.relPath hf
  have hl : hexlify (leafDigest keccak256 e') = Cli.entryLeaf keccak256 toUtf8Bytes sep e' :=
    congrArg SealedFile.leaf hf
  rw [entryLeaf_eq (hs e' he).canonical hr] at hl
  have hi {i} (hi : i ∈ sealerInputs keccak256 toUtf8Bytes e') :
      i ∈ S.flatMap (sealerInputs keccak256 toUtf8Bytes) := List.mem_flatMap.mpr ⟨e', he, hi⟩
  have hp := c _ (hi <| by simp [sealerInputs]) _ (hi <| by simp [sealerInputs, hr]) <| hexlify_inj hl
  simp only [leafInput, List.append_assoc, List.append_cancel_left_eq, List.append_cancel_right_eq] at hp
  exact ⟨(hs e' he).canonical, hp ▸ hr, (hs e' he).own⟩

end

section

variable (ethersKeccak256 : Bytes → Bytes32) (toUtf8Bytes : JsString → Except JsString Bytes) (sep : UInt16)

-- The producer makes the same seal of the entries, and the same text of the seal.
def MatchesProducer (S : List FileEntry) (s : BuiltSeal) : Prop :=
  ∃ s', Cli.Evidence.buildSeal ethersKeccak256 toUtf8Bytes sep S = .ok s' ∧ s' = s ∧
    Cli.Evidence.serializeSeal ethersKeccak256 toUtf8Bytes sep s' = .ok (serializeEvidenceSeal s)

end

-- The free sealer matches the producer exactly for the entries which both treat alike, where the functions of
-- `ethers` and `js-sha3` are taken to compute keccak256.
theorem matchesProducer_iff {ethersKeccak256 jsKeccak256 : Bytes → Bytes32}
    (he : ∀ bytes, ethersKeccak256 bytes = Keccak.keccak256 bytes)
    (hj : ∀ bytes, jsKeccak256 bytes = Keccak.keccak256 bytes)
    (h : buildEvidenceSeal jsKeccak256 S = .ok s)
    (c : CollisionFree Keccak.keccak256 (S.flatMap <| sealerInputs Keccak.keccak256 toUtf8Bytes)) :
    MatchesProducer ethersKeccak256 toUtf8Bytes sep S s ↔ ∀ e ∈ S, SealedAlike toUtf8Bytes sep e := by
  obtain rfl : ethersKeccak256 = Keccak.keccak256 := funext he
  obtain rfl : jsKeccak256 = Keccak.keccak256 := funext hj
  obtain ⟨hn, hnorm, rfl⟩ := of_buildEvidenceSeal h
  constructor
  case mp =>
    rintro ⟨s', hb, rfl, -⟩
    have hs := Cli.sealable_of_buildSeal rfl hb
    have heq := Except.ok.inj <| (Cli.buildSeal_eq rfl hn hnorm.toCli hs).symm.trans hb
    exact sealedAlike_of_sealOver_eq hnorm hs c heq
  case mpr =>
    intro ha
    have hs : ∀ e ∈ S, Cli.Sealable toUtf8Bytes sep e := fun e he => (ha e he).sealable
    have hb : Cli.Evidence.buildSeal Keccak.keccak256 toUtf8Bytes sep S = _ :=
      Cli.buildSeal_eq rfl hn hnorm.toCli hs
    obtain ⟨x, -, hv⟩ := @Cli.validateSeal_sealOver Keccak.keccak256 toUtf8Bytes sep Cli.Evidence.SEAL_CFG S rfl
      (List.mem_singleton_self _) hn hnorm.toCli hs
    rw [sealOver_eq ha] at hb hv
    refine ⟨_, hb, rfl, ?_⟩
    rw [Cli.Evidence.serializeSeal, hv]
    rfl

theorem matchesProducer_iff_ab :
    ∃ s, buildEvidenceSeal Keccak.keccak256 [Cli.entryA, Cli.entryB] = .ok s ∧
      MatchesProducer Keccak.keccak256 Unicode.strictUtf8 Cli.slash [Cli.entryA, Cli.entryB] s := by
  have hb : buildEvidenceSeal Keccak.keccak256 [Cli.entryA, Cli.entryB] = .ok _ :=
    buildEvidenceSeal_eq (by simp) (by decide) ⟨by decide, by decide, by decide⟩
  have hs : ∀ e ∈ [Cli.entryA, Cli.entryB], SealedAlike Unicode.strictUtf8 Cli.slash e := List.forall_mem_cons.mpr
    ⟨⟨by decide, by decide +kernel, by decide⟩, by simpa using ⟨by decide, by decide +kernel, by decide⟩⟩
  exact ⟨_, hb, matchesProducer_iff (fun _ => rfl) (fun _ => rfl) hb (by decide +kernel) |>.mpr hs⟩

-- The free sealer makes a seal of a file whose name is that of a method of every object, but the producer
-- does not.
theorem not_matchesProducer :
    ∃ s, buildEvidenceSeal Keccak.keccak256 [Cli.constructorFile] = .ok s ∧
      ¬ MatchesProducer Keccak.keccak256 Unicode.strictUtf8 Cli.slash [Cli.constructorFile] s := by
  refine ⟨_, buildEvidenceSeal_eq (by simp) (by decide) ⟨by decide, by decide, by decide⟩, ?_⟩
  rintro ⟨s', hb, -⟩
  have hs := Cli.sealable_of_buildSeal rfl hb Cli.constructorFile List.mem_cons_self
  exact hs.own <| by decide

end Verifier.SealEvidence
