import Verifyhash.Verifier.Theorems.SealEvidence
import Verifyhash.Verifier.Theorems.Signers
import Verifyhash.VerifierRs.Theorems.Stringify
import Verifyhash.VerifierRs.Verify

-- What the verifier in Rust says of the text of a seal which the free sealer made.
namespace VerifierRs

open Hex Fallible
open Cli (FileEntry SealedFile BuiltSeal sortByRel)
open Verifier (rootOf leafOf rs_rootFromFlat)
open Verifier.SealEvidence (Normalized buildEvidenceSeal of_buildEvidenceSeal freeFile freeSeal leafDigest rootOf_perm)
open Recover (utf16_ascii utf8_ascii digit_eq)

-- The texts which the parser reads for a file of a seal.
structure ReadsFile (v : RustJson.Value) (relPath contentHash : JsString) : Prop where
  rel_path     : ∃ cs, (v.get "relPath".toList).bind RustJson.Value.as_str = some cs ∧ Unicode.utf16 cs = relPath
  content_hash : ∃ cs, (v.get "contentHash".toList).bind RustJson.Value.as_str = some cs ∧ Unicode.utf16 cs = contentHash

-- The value which the parser reads for a seal.
structure Reads (v : RustJson.Value) (s : BuiltSeal) : Prop where
  files : ∃ vs, (v.get "files".toList).bind RustJson.Value.as_array = some vs ∧
    vs.Forall₂ (fun v f => ReadsFile v f.relPath f.contentHash) s.files
  root  : ∃ cs, (v.get "root".toList).bind RustJson.Value.as_str = some cs ∧ s.root = some (Unicode.utf16 cs)

-- An entry whose path is the given text.
def Names (cs : List Char) (e : FileEntry) : Prop :=
  Unicode.utf16 cs = e.relPath

-- The verifier accepts exactly the directories with the sealed contents, and names the entries which differ.
structure Localizes (fs : FileSystem) (S : List FileEntry) (r : FileResult) : Prop where
  missing  : ∀ cs, cs ∈ r.missing ↔ ∃ e ∈ S, Names cs e ∧ read_entry fs cs = .missing
  escaped  : ∀ cs, cs ∈ r.escaped ↔ ∃ e ∈ S, Names cs e ∧ read_entry fs cs = .escaped
  changed  : ∀ cs, cs ∈ r.changed.map RustJson.ChangedEntry.rel_path ↔
    ∃ e ∈ S, Names cs e ∧ ∃ data, read_entry fs cs = .ok data ∧ Keccak.keccak256 data ≠ Keccak.keccak256 e.bytes
  files_ok : r.files_ok ↔ ∀ e ∈ S, ∃ cs, Names cs e ∧
    ∃ data, read_entry fs cs = .ok data ∧ Keccak.keccak256 data = Keccak.keccak256 e.bytes

section

-- The spelling of a hash.
def hexText (w : Bytes32) : List Char :=
  bytes_to_hex0x (.ofBytes32 w)

theorem digits_pairs (w x : ℕ) : Numeral.digits 16 (2 * w) x = (Numeral.digits 256 w x).flatMap (Numeral.digits 16 2) := by
  induction w generalizing x
  case zero => rfl
  case succ w ih =>
    have h₁ : x % 256 / 16 % 16 = x / 16 % 16 := by omega
    have h₂ : x % 256 % 16 = x % 16 := by omega
    rw [Nat.mul_succ, Numeral.digits, Numeral.digits, Numeral.digits, List.flatMap_append, List.flatMap_singleton,
      ←ih, Nat.div_div_eq_div_mul, List.append_assoc]
    simp [Numeral.digits, h₁, h₂]

theorem hexText_eq (w : Bytes32) : hexText w = "0x".toList ++ (Numeral.digits 16 64 w.toNat).map Nat.digitChar := by
  have hd := digits_pairs 32 w.toNat
  rw [hexText, bytes_to_hex0x, hd, ←Bytes.map_toNat_ofNat, List.flatMap_map, List.map_flatMap]
  rfl

theorem ascii_hexText (w : Bytes32) : ∀ c ∈ hexText w, c.toNat < 128 ∧ c.toLower = c := by
  intro c hc
  rw [hexText_eq, List.mem_append] at hc
  rcases hc with hc | hc
  case inl =>
    have : ∀ c ∈ "0x".toList, c.toNat < 128 ∧ c.toLower = c := by simp
    exact this c hc
  case inr =>
    obtain ⟨d, hd, rfl⟩ := List.mem_map.mp hc
    have : ∀ d < 16, (Nat.digitChar d).toNat < 128 ∧ (Nat.digitChar d).toLower = Nat.digitChar d := by decide
    exact this d <| Numeral.digits_lt (by omega) hd

theorem utf16_hexText (w : Bytes32) : Unicode.utf16 (hexText w) = hexlify w := by
  rw [utf16_ascii fun c hc => (ascii_hexText w c hc).left, hexText_eq, List.map_append, List.map_map]
  refine congrArg (js "0x" ++ ·) <| List.map_congr_left fun d hd => ?_
  exact (digit_eq <| Numeral.digits_lt (by omega) hd).right

theorem hexText_inj (h : hexText v = hexText w) : v = w :=
  hexlify_inj <| by rw [←utf16_hexText, h, utf16_hexText]

theorem eq_ignore_ascii_case_hexText : eq_ignore_ascii_case (hexText v) (hexText w) ↔ v = w := by
  have hl (w : Bytes32) : (hexText w).map Char.toLower = hexText w :=
    (List.map_congr_left fun c hc => (ascii_hexText w c hc).right).trans <| List.map_id' _
  rw [eq_ignore_ascii_case, hl, hl, decide_eq_true_eq]
  exact ⟨hexText_inj, congrArg hexText⟩

theorem is_hex32_hexText (w : Bytes32) : is_hex32 (hexText w) := by
  have ha := utf8_ascii fun c hc => (ascii_hexText w c hc).left
  have hd : ∀ d < 16, is_ascii_hexdigit (.ofNat (Nat.digitChar d).toNat) := by decide
  have hp : "0x".toList.isPrefixOf (hexText w) := List.isPrefixOf_iff_prefix.mpr <| hexText_eq w ▸ List.prefix_append ..
  have hl : (hexText w).length = 66 := by
    rw [hexText_eq, List.length_append, List.length_map, Numeral.digits_length]
    rfl
  have ht : (hexText w).drop 2 = (Numeral.digits 16 64 w.toNat).map Nat.digitChar := by
    rw [hexText_eq]
    rfl
  rw [is_hex32, ha, List.length_map, hl, ←List.map_drop, ht, List.map_map, decide_eq_true_eq]
  refine ⟨rfl, hp, List.all_eq_true.mpr fun b hb => ?_⟩
  obtain ⟨d, hm, rfl⟩ := List.mem_map.mp hb
  exact hd d <| Numeral.digits_lt (by omega) hm

end

section

variable {fs : FileSystem}

def Classified.append (a b : Classified) : Classified where
  matched := a.matched ++ b.matched
  changed := a.changed ++ b.changed
  missing := a.missing ++ b.missing
  escaped := a.escaped ++ b.escaped
  flat    := a.flat ++ b.flat

theorem Classified.append_assoc (a b c : Classified) : (a.append b).append c = a.append (b.append c) := by
  simp [append]

theorem Classified.append_empty (a : Classified) : a.append {} = a := by
  simp [append]

-- A turn of the loop only adds to the lists.
theorem classify_eq (acc : Classified) (p h : List Char) : classify fs acc p h = acc.append (classify fs {} p h) := by
  rw [classify, classify]
  cases read_entry fs p
  case ok data =>
    dsimp only
    split_ifs <;> simp [Classified.append]
  case missing => simp [Classified.append]
  case escaped => simp [Classified.append]

-- What the loop adds for a file with the given contents at the time of the sealing.
def addition (fs : FileSystem) (f : List Char × FileEntry) : Classified :=
  classify fs {} f.fst (hexText <| Keccak.keccak256 f.snd.bytes)

variable (fs) in
def additions : List (List Char × FileEntry) → Classified
  | []      => {}
  | f :: fl => (addition fs f).append (additions fl)

variable {f : List Char × FileEntry}

theorem addition_missing (h : read_entry fs f.fst = .missing) : addition fs f = { missing := [f.fst] } := by
  rw [addition, classify, h]
  rfl

theorem addition_escaped (h : read_entry fs f.fst = .escaped) : addition fs f = { escaped := [f.fst] } := by
  rw [addition, classify, h]
  rfl

theorem bytes_to_hex0x_keccak256 (data : Bytes) : bytes_to_hex0x (keccak256 data).val = hexText (Keccak.keccak256 data) := by
  rw [keccak256_eq]
  rfl

theorem addition_matched (h : read_entry fs f.fst = .ok data) (hk : Keccak.keccak256 data = Keccak.keccak256 f.snd.bytes) :
    addition fs f = {
      matched := [(f.fst, hexText <| Keccak.keccak256 data)]
      flat    := [(f.fst, .ofBytes32 <| Keccak.keccak256 f.snd.bytes)]
    } := by
  rw [addition, classify, h]
  dsimp only
  rw [bytes_to_hex0x_keccak256, if_pos <| eq_ignore_ascii_case_hexText.mpr hk, keccak256_eq, hk]
  rfl

theorem addition_changed (h : read_entry fs f.fst = .ok data) (hk : Keccak.keccak256 data ≠ Keccak.keccak256 f.snd.bytes) :
    addition fs f = {
      changed := [⟨f.fst, hexText <| Keccak.keccak256 f.snd.bytes, hexText <| Keccak.keccak256 data⟩]
      flat    := [(f.fst, .ofBytes32 <| Keccak.keccak256 data)]
    } := by
  rw [addition, classify, h]
  dsimp only
  rw [bytes_to_hex0x_keccak256, if_neg <| mt eq_ignore_ascii_case_hexText.mp hk, keccak256_eq]
  rfl

theorem addition_found (h : read_entry fs f.fst = .ok data) :
    (addition fs f).missing = [] ∧ (addition fs f).escaped = [] := by
  by_cases hk : Keccak.keccak256 data = Keccak.keccak256 f.snd.bytes
  · rw [addition_matched h hk]
    exact ⟨rfl, rfl⟩
  · rw [addition_changed h hk]
    exact ⟨rfl, rfl⟩

-- The members of a list after the loop are those which some file adds.
theorem mem_additions {φ : Classified → List α} (he : φ {} = []) (ha : ∀ a b, φ (a.append b) = φ a ++ φ b)
    {fl : List (List Char × FileEntry)} {x : α} : x ∈ φ (additions fs fl) ↔ ∃ f ∈ fl, x ∈ φ (addition fs f) := by
  induction fl
  case nil => simp [additions, he]
  case cons f fl ih => simp [additions, ha, ih]

theorem nil_additions {φ : Classified → List α} (he : φ {} = []) (ha : ∀ a b, φ (a.append b) = φ a ++ φ b)
    {fl : List (List Char × FileEntry)} : φ (additions fs fl) = [] ↔ ∀ f ∈ fl, φ (addition fs f) = [] := by
  induction fl
  case nil => simp [additions, he]
  case cons f fl ih => simp [additions, ha, ih]

-- The files as the loop meets them, each with the text of its path.
structure Listed (v : RustJson.Value) (f : List Char × FileEntry) : Prop where
  rel_path     : (v.get "relPath".toList).bind RustJson.Value.as_str = some f.fst
  content_hash : (v.get "contentHash".toList).bind RustJson.Value.as_str =
    some (hexText <| Keccak.keccak256 f.snd.bytes)
  names        : Names f.fst f.snd

theorem exists_listed {vs : List RustJson.Value} {T : List FileEntry}
    (h : vs.Forall₂ (fun v f => ReadsFile v f.relPath f.contentHash) (T.map <| freeFile Keccak.keccak256)) :
    ∃ fl : List (List Char × FileEntry), fl.map Prod.snd = T ∧ vs.Forall₂ Listed fl := by
  induction T generalizing vs
  case nil =>
    cases h
    exact ⟨[], rfl, .nil⟩
  case cons e T ih =>
    cases h
    case cons v vs hv ht =>
    obtain ⟨fl, rfl, hl⟩ := ih ht
    obtain ⟨p, hp, hn⟩ := hv.rel_path
    obtain ⟨d, hd, hh⟩ := hv.content_hash
    obtain rfl : d = hexText (Keccak.keccak256 e.bytes) := Unicode.utf16_inj <| hh.trans (utf16_hexText _).symm
    exact ⟨(p, e) :: fl, rfl, .cons ⟨hp, hd, hn⟩ hl⟩

theorem foldlM_verifyFile {vs : List RustJson.Value} {fl : List (List Char × FileEntry)} (h : vs.Forall₂ Listed fl)
    (acc : Classified) : vs.foldlM (verifyFile fs) acc = .ok (acc.append <| additions fs fl) := by
  induction h generalizing acc
  case nil => rw [additions, Classified.append_empty]; rfl
  case cons v f vs fl hv _ ih =>
    have hs : verifyFile fs acc v = .ok (acc.append <| addition fs f) := by
      rw [verifyFile, hv.rel_path, hv.content_hash]
      change Except.ok (classify fs acc f.fst _) = _
      rw [classify_eq]
      rfl
    rw [List.foldlM_cons, hs, ok_bind, ih, additions, Classified.append_assoc]

-- What the file system says of an entry.
theorem read_entry_cases (fs : FileSystem) (f : List Char × FileEntry) :
    read_entry fs f.fst = .missing ∨ read_entry fs f.fst = .escaped ∨
      ∃ data, read_entry fs f.fst = .ok data := by
  cases h : read_entry fs f.fst
  case ok data => exact .inr <| .inr ⟨data, rfl⟩
  case missing => exact .inl rfl
  case escaped => exact .inr <| .inl rfl

theorem mem_addition_missing : cs ∈ (addition fs f).missing ↔ cs = f.fst ∧ read_entry fs cs = .missing := by
  obtain h | h | ⟨data, h⟩ := read_entry_cases fs f
  · rw [addition_missing h, List.mem_singleton]
    exact ⟨fun hc => ⟨hc, hc ▸ h⟩, And.left⟩
  · rw [addition_escaped h]
    exact ⟨nofun, fun ⟨hc, hm⟩ => by simp [hc, h] at hm⟩
  · rw [(addition_found h).left]
    exact ⟨nofun, fun ⟨hc, hm⟩ => by simp [hc, h] at hm⟩

theorem mem_addition_escaped : cs ∈ (addition fs f).escaped ↔ cs = f.fst ∧ read_entry fs cs = .escaped := by
  obtain h | h | ⟨data, h⟩ := read_entry_cases fs f
  · rw [addition_missing h]
    exact ⟨nofun, fun ⟨hc, hm⟩ => by simp [hc, h] at hm⟩
  · rw [addition_escaped h, List.mem_singleton]
    exact ⟨fun hc => ⟨hc, hc ▸ h⟩, And.left⟩
  · rw [(addition_found h).right]
    exact ⟨nofun, fun ⟨hc, hm⟩ => by simp [hc, h] at hm⟩

theorem mem_addition_changed : cs ∈ (addition fs f).changed.map RustJson.ChangedEntry.rel_path ↔
    cs = f.fst ∧ ∃ data, read_entry fs cs = .ok data ∧ Keccak.keccak256 data ≠ Keccak.keccak256 f.snd.bytes := by
  obtain h | h | ⟨data, h⟩ := read_entry_cases fs f
  · rw [addition_missing h]
    exact ⟨nofun, fun ⟨hc, _, hm, _⟩ => by simp [hc, h] at hm⟩
  · rw [addition_escaped h]
    exact ⟨nofun, fun ⟨hc, _, hm, _⟩ => by simp [hc, h] at hm⟩
  · by_cases hk : Keccak.keccak256 data = Keccak.keccak256 f.snd.bytes
    · rw [addition_matched h hk]
      refine ⟨nofun, ?_⟩
      rintro ⟨rfl, data', hm, hne⟩
      obtain rfl : data = data' := ReadStatus.ok.inj <| h.symm.trans hm
      exact absurd hk hne
    · rw [addition_changed h hk, List.map_singleton, List.mem_singleton]
      refine ⟨fun hc => ⟨hc, data, hc ▸ h, hk⟩, And.left⟩

-- An entry which is found as it was sealed.
def Unchanged (fs : FileSystem) (f : List Char × FileEntry) : Prop :=
  ∃ data, read_entry fs f.fst = .ok data ∧ Keccak.keccak256 data = Keccak.keccak256 f.snd.bytes

theorem unchanged_iff : Unchanged fs f ↔
    (addition fs f).changed = [] ∧ (addition fs f).missing = [] ∧ (addition fs f).escaped = [] := by
  obtain h | h | ⟨data, h⟩ := read_entry_cases fs f
  · rw [addition_missing h, Unchanged, h]
    simp
  · rw [addition_escaped h, Unchanged, h]
    simp
  · by_cases hk : Keccak.keccak256 data = Keccak.keccak256 f.snd.bytes
    · rw [addition_matched h hk]
      exact ⟨fun _ => ⟨rfl, rfl, rfl⟩, fun _ => ⟨data, h, hk⟩⟩
    · rw [addition_changed h hk, Unchanged, h]
      simpa using hk

theorem flat_additions {fl : List (List Char × FileEntry)} (h : ∀ f ∈ fl, Unchanged fs f) :
    (additions fs fl).flat = fl.map fun f => (f.fst, .ofBytes32 <| Keccak.keccak256 f.snd.bytes) := by
  induction fl
  case nil => rfl
  case cons f fl ih =>
    obtain ⟨data, hd, hk⟩ := h f List.mem_cons_self
    rw [additions, Classified.append, ih fun f hf => h f <| List.mem_cons_of_mem _ hf, addition_matched hd hk]
    rfl

-- The root which is derived again is that of the seal, if every entry is found as it was sealed.
theorem rootFromFlat_additions {fl : List (List Char × FileEntry)} (hn : fl ≠ []) (h : ∀ f ∈ fl, Unchanged fs f)
    (hp : ∀ f ∈ fl, Names f.fst f.snd) (hd : ∀ f ∈ fl, (Unicode.utf16 f.fst).take 2 ≠ js "./") :
    rootFromFlat (additions fs fl).flat =
      (rootOf Keccak.keccak256 <| (fl.map Prod.snd).map <| leafDigest Keccak.keccak256).map .ofBytes32 := by
  let files := fl.map fun f => (f.fst, Keccak.keccak256 f.snd.bytes)
  have hf : (additions fs fl).flat = files.map fun file => (file.fst, .ofBytes32 file.snd) := by
    rw [flat_additions h, List.map_map]
    rfl
  have hl : files.map (leafOf Keccak.keccak256) = (fl.map Prod.snd).map (leafDigest Keccak.keccak256) := by
    rw [List.map_map, List.map_map]
    refine List.map_congr_left fun f hm => ?_
    change leafOf Keccak.keccak256 (f.fst, _) = leafDigest Keccak.keccak256 f.snd
    rw [leafDigest, ←hp f hm, Unicode.bufferFrom_utf16]
    rfl
  rw [hf, rs_rootFromFlat (by simpa [files] using hn), hl]
  intro file hm
  obtain ⟨f, hf, rfl⟩ := List.mem_map.mp hm
  exact hd f hf

theorem files_ok_conclude {root : List Char} {acc : Classified} : (conclude root acc).files_ok ↔
    (acc.changed = [] ∧ acc.missing = [] ∧ acc.escaped = []) ∧ acc.flat ≠ [] ∧
      ∃ r, rootFromFlat acc.flat = some r ∧ eq_ignore_ascii_case (bytes_to_hex0x r.val) root := by
  simp only [conclude, decide_eq_true_eq, List.isEmpty_iff]
  constructor
  case mp =>
    rintro ⟨hc, hm, he, -, -, -, hr⟩
    refine ⟨⟨hc, hm, he⟩, ?_⟩
    split_ifs at hr with hf
    case pos => cases hr
    case neg =>
      cases h : rootFromFlat acc.flat
      case none => simp [h] at hr
      case some r => exact ⟨hf, r, rfl, by simpa [h] using hr⟩
  case mpr =>
    rintro ⟨⟨hc, hm, he⟩, hf, r, hr, heq⟩
    refine ⟨hc, hm, he, hm, hc, he, ?_⟩
    rw [if_neg hf, hr]
    exact heq

theorem unchanged_all_iff {fl : List (List Char × FileEntry)} : (∀ f ∈ fl, Unchanged fs f) ↔
    (additions fs fl).changed = [] ∧ (additions fs fl).missing = [] ∧ (additions fs fl).escaped = [] := by
  rw [nil_additions (φ := Classified.changed) rfl fun _ _ => rfl,
    nil_additions (φ := Classified.missing) rfl fun _ _ => rfl,
    nil_additions (φ := Classified.escaped) rfl fun _ _ => rfl]
  simp only [unchanged_iff]
  exact ⟨fun h => ⟨fun f hm => (h f hm).1, fun f hm => (h f hm).2.1, fun f hm => (h f hm).2.2⟩,
    fun ⟨h₁, h₂, h₃⟩ f hm => ⟨h₁ f hm, h₂ f hm, h₃ f hm⟩⟩

variable {S : List FileEntry} {s : BuiltSeal} {v : RustJson.Value}

theorem files_freeSeal : (freeSeal Keccak.keccak256 S).files =
    (sortByRel FileEntry.relPath S).map (freeFile Keccak.keccak256) :=
  (List.map_insertionSort _ _ (freeFile Keccak.keccak256) S fun _ _ _ _ => Iff.rfl).symm

-- The files of a seal which the free sealer made, in the order of their paths.
theorem exists_files (hv : Reads v (freeSeal Keccak.keccak256 S)) :
    ∃ vs fl, (v.get "files".toList).bind RustJson.Value.as_array = some vs ∧ vs.Forall₂ Listed fl ∧
      (fl.map Prod.snd).Perm S := by
  obtain ⟨vs, hvs, hf⟩ := hv.files
  rw [files_freeSeal] at hf
  obtain ⟨fl, hfl, hl⟩ := exists_listed hf
  exact ⟨vs, fl, hvs, hl, hfl ▸ Cli.sortByRel_perm⟩

theorem Listed.forall_names {vs : List RustJson.Value} {fl : List (List Char × FileEntry)} (h : vs.Forall₂ Listed fl) :
    ∀ f ∈ fl, Names f.fst f.snd := by
  induction h
  case nil => simp
  case cons hv _ ih => exact List.forall_mem_cons.mpr ⟨hv.names, ih⟩

section

variable {fl : List (List Char × FileEntry)} (hp : (fl.map Prod.snd).Perm S) (hn : ∀ f ∈ fl, Names f.fst f.snd)

include hp

theorem mem_of_perm {e : FileEntry} : e ∈ S ↔ ∃ f ∈ fl, f.snd = e := by
  rw [←hp.mem_iff, List.mem_map]

include hn

-- A text stands for one entry at most.
theorem exists_entry_iff {cs : List Char} {P : FileEntry → Prop} :
    (∃ f ∈ fl, cs = f.fst ∧ P f.snd) ↔ ∃ e ∈ S, Names cs e ∧ P e := by
  constructor
  case mp =>
    rintro ⟨f, hm, rfl, hP⟩
    exact ⟨f.snd, (mem_of_perm hp).mpr ⟨f, hm, rfl⟩, hn f hm, hP⟩
  case mpr =>
    rintro ⟨e, he, hc, hP⟩
    obtain ⟨f, hm, rfl⟩ := (mem_of_perm hp).mp he
    exact ⟨f, hm, Unicode.utf16_inj <| hc.trans (hn f hm).symm, hP⟩

theorem forall_entry_iff {P : List Char → FileEntry → Prop} :
    (∀ f ∈ fl, P f.fst f.snd) ↔ ∀ e ∈ S, ∃ cs, Names cs e ∧ P cs e := by
  constructor
  case mp =>
    intro h e he
    obtain ⟨f, hm, rfl⟩ := (mem_of_perm hp).mp he
    exact ⟨f.fst, hn f hm, h f hm⟩
  case mpr =>
    intro h f hm
    obtain ⟨cs, hc, hP⟩ := h f.snd <| (mem_of_perm hp).mpr ⟨f, hm, rfl⟩
    obtain rfl : cs = f.fst := Unicode.utf16_inj <| hc.trans (hn f hm).symm
    exact hP

end

-- A path which the sealer accepts does not start with `./`.
theorem take_ne_of_normalized (h : Normalized S) {e : FileEntry} (he : e ∈ S) : e.relPath.take 2 ≠ js "./" := by
  intro ht
  have hc := h.canonical e he
  rw [Verifier.toPosixRel, if_pos ht] at hc
  have h₁ := congrArg List.length hc
  have h₂ := congrArg List.length ht
  have : (js "./").length = 2 := by decide
  rw [List.length_drop] at h₁
  rw [List.length_take] at h₂
  omega

-- Whoever reads the fields of the seal as they are localizes what has changed.
theorem localizes_of_reads (fs : FileSystem) (h : buildEvidenceSeal Keccak.keccak256 S = .ok s) (hv : Reads v s) :
    ∃ r, verify_evidence_seal fs v = .ok r ∧ Localizes fs S r := by
  obtain ⟨hn, hnorm, rfl⟩ := of_buildEvidenceSeal h
  obtain ⟨vs, fl, hvs, hl, hp⟩ := exists_files hv
  have hnames := Listed.forall_names hl
  have hne : fl ≠ [] := by
    rintro rfl
    exact hn hp.symm.eq_nil
  have hd : ∀ f ∈ fl, (Unicode.utf16 f.fst).take 2 ≠ js "./" := fun f hm => by
    rw [hnames f hm]
    exact take_ne_of_normalized hnorm <| (mem_of_perm hp).mpr ⟨f, hm, rfl⟩
  have hln : S.map (leafDigest Keccak.keccak256) ≠ [] := by simpa using hn
  obtain ⟨root, hroot⟩ := Verifier.exists_rootOf Keccak.keccak256 hln
  obtain ⟨text, htext, hre⟩ := hv.root
  obtain rfl : text = hexText root := by
    have : (freeSeal Keccak.keccak256 S).root = some (hexlify root) := by
      rw [freeSeal, hroot]
      rfl
    exact Unicode.utf16_inj <| (Option.some.inj <| hre.symm.trans this).trans (utf16_hexText _).symm
  refine ⟨conclude (hexText root) (additions fs fl), ?_, ?_, ?_, ?_, ?_⟩
  case refine_1 =>
    have he : vs.isEmpty = false := by
      cases hl
      case nil => exact absurd rfl hne
      case cons => rfl
    have hx := is_hex32_hexText root
    simp only [verify_evidence_seal, hvs, htext, demand, ok_bind, he, Option.filter, hx, foldlM_verifyFile hl]
    rfl
  case refine_2 =>
    intro cs
    change cs ∈ (additions fs fl).missing ↔ _
    rw [mem_additions (φ := Classified.missing) rfl fun _ _ => rfl, ←exists_entry_iff hp hnames]
    exact exists_congr fun f => and_congr_right fun _ => mem_addition_missing
  case refine_3 =>
    intro cs
    change cs ∈ (additions fs fl).escaped ↔ _
    rw [mem_additions (φ := Classified.escaped) rfl fun _ _ => rfl, ←exists_entry_iff hp hnames]
    exact exists_congr fun f => and_congr_right fun _ => mem_addition_escaped
  case refine_4 =>
    intro cs
    change cs ∈ (additions fs fl).changed.map _ ↔ _
    rw [mem_additions (φ := fun a => a.changed.map RustJson.ChangedEntry.rel_path) rfl fun _ _ => List.map_append,
      ←exists_entry_iff hp hnames]
    exact exists_congr fun f => and_congr_right fun _ => mem_addition_changed
  case refine_5 =>
    -- The root is that of the seal once every entry is found as it was sealed.
    rw [files_ok_conclude, ←unchanged_all_iff, ←forall_entry_iff hp hnames]
    refine ⟨And.left, fun h => ⟨h, ?_, .ofBytes32 root, ?_, eq_ignore_ascii_case_hexText.mpr rfl⟩⟩
    · simpa [flat_additions h] using hne
    · rw [rootFromFlat_additions hne h hnames hd, rootOf_perm <| hp.map _, hroot]
      rfl

section

open Json (stringify ownOrder)
open Unicode (utf16 decode WellFormed)
open Verifier.SealEvidence (serializeEvidenceSeal SEAL_KIND EVIDENCE_TRUST_NOTE)

theorem readAs_decode {t : JsString} (h : utf16 (decode t) = t) : ReadAs (.string t) (.string <| decode t) := by
  have := readAs_string (decode t)
  rwa [h] at this

theorem readAs_hexlify (w : Bytes32) : ReadAs (.string <| hexlify w) (.string <| hexText w) :=
  utf16_hexText w ▸ readAs_string (hexText w)

theorem utf16_decode {t : JsString} (h : WellFormed t) : utf16 (decode t) = t := by
  obtain ⟨cs, rfl⟩ := h
  rw [Unicode.decode_utf16]

-- What is read for an entry of the free seal.
def fileFields (e : FileEntry) : List (List Char × RustJson.Value) := [
  ("relPath".toList, .string <| decode e.relPath),
  ("contentHash".toList, .string <| hexText <| Keccak.keccak256 e.bytes),
  ("leaf".toList, .string <| hexText <| leafDigest Keccak.keccak256 e)
]

-- The keys are the same texts, none of which is an index.
theorem keys_eq : js "relPath" = utf16 "relPath".toList ∧ js "contentHash" = utf16 "contentHash".toList ∧
    js "leaf" = utf16 "leaf".toList ∧ js "kind" = utf16 "kind".toList ∧
    js "schemaVersion" = utf16 "schemaVersion".toList ∧ js "note" = utf16 "note".toList ∧
    js "root" = utf16 "root".toList ∧ js "fileCount" = utf16 "fileCount".toList ∧
    js "files" = utf16 "files".toList := by
  and_intros <;> decide

def fileKeys : List JsString :=
  [js "relPath", js "contentHash", js "leaf"]

def sealKeys : List JsString :=
  [js "kind", js "schemaVersion", js "note", js "root", js "fileCount", js "files"]

theorem ownOrder_keys : (fileKeys.Nodup ∧ ownOrder fileKeys = fileKeys) ∧
    sealKeys.Nodup ∧ ownOrder sealKeys = sealKeys := by
  decide +kernel

theorem readAs_file {e : FileEntry} (h : WellFormed e.relPath) :
    ReadAs (freeFile Keccak.keccak256 e).toValue (.object (fileFields e).reverse) := by
  have ⟨h₁, h₂, h₃, _⟩ := keys_eq
  have ⟨⟨hn, ho⟩, _⟩ := ownOrder_keys
  have ht : (freeFile Keccak.keccak256 e).toValue = .object [
      (js "relPath", .string e.relPath),
      (js "contentHash", .string <| hexlify <| Keccak.keccak256 e.bytes),
      (js "leaf", .string <| hexlify <| leafDigest Keccak.keccak256 e)
    ] := rfl
  rw [ht]
  refine readAs_object (List.cons_ne_nil _ _) ?_ hn ho
  exact .cons ⟨h₁, readAs_decode <| utf16_decode h⟩ <| .cons ⟨h₂, readAs_hexlify _⟩ <|
    .cons ⟨h₃, readAs_hexlify _⟩ .nil

-- What is read for the seal itself.
def sealFields (S : List FileEntry) (root : Bytes32) : List (List Char × RustJson.Value) := [
  ("kind".toList, .string <| decode SEAL_KIND),
  ("schemaVersion".toList, RustJson.countValue 1),
  ("note".toList, .string <| decode EVIDENCE_TRUST_NOTE),
  ("root".toList, .string <| hexText root),
  ("fileCount".toList, RustJson.countValue S.length),
  ("files".toList, .array <| (sortByRel FileEntry.relPath S).map fun e => .object (fileFields e).reverse)
]

theorem readAs_freeSeal {root : Bytes32} (hl : S.length ≤ 25) (hw : ∀ e ∈ S, WellFormed e.relPath)
    (hr : (freeSeal Keccak.keccak256 S).root = some (hexlify root)) :
    ReadAs (freeSeal Keccak.keccak256 S).toValue (.object (sealFields S root).reverse) := by
  have hf : ((freeSeal Keccak.keccak256 S).files.map SealedFile.toValue).Forall₂ ReadAs
      ((sortByRel FileEntry.relPath S).map fun e => .object (fileFields e).reverse) := by
    rw [files_freeSeal, List.map_map, List.forall₂_map_left_iff, List.forall₂_map_right_iff, List.forall₂_same]
    exact fun e he => readAs_file <| hw e <| Cli.sortByRel_perm.mem_iff.mp he
  have hk : utf16 (decode SEAL_KIND) = SEAL_KIND := by decide +kernel
  have hn : utf16 (decode EVIDENCE_TRUST_NOTE) = EVIDENCE_TRUST_NOTE := by decide +kernel
  have ⟨_, _, _, h₁, h₂, h₃, h₄, h₅, h₆⟩ := keys_eq
  have ⟨_, hnd, ho⟩ := ownOrder_keys
  have ht : (freeSeal Keccak.keccak256 S).toValue = .object [
      (js "kind", .string SEAL_KIND),
      (js "schemaVersion", .nat 1),
      (js "note", .string EVIDENCE_TRUST_NOTE),
      (js "root", .string <| hexlify root),
      (js "fileCount", .nat S.length),
      (js "files", .array <| (freeSeal Keccak.keccak256 S).files.map SealedFile.toValue)
    ] := by
    rw [BuiltSeal.toValue, hr]
    rfl
  rw [ht]
  refine readAs_object (List.cons_ne_nil _ _) ?_ hnd ho
  exact .cons ⟨h₁, readAs_decode hk⟩ <| .cons ⟨h₂, readAs_nat (by norm_num)⟩ <| .cons ⟨h₃, readAs_decode hn⟩ <|
    .cons ⟨h₄, readAs_hexlify root⟩ <| .cons ⟨h₅, readAs_nat hl⟩ <| .cons ⟨h₆, readAs_array hf⟩ .nil

theorem reads_sealFields {root : Bytes32} (hw : ∀ e ∈ S, WellFormed e.relPath)
    (hr : (freeSeal Keccak.keccak256 S).root = some (hexlify root)) :
    Reads (.object (sealFields S root).reverse) (freeSeal Keccak.keccak256 S) := by
  refine ⟨⟨_, rfl, ?_⟩, _, rfl, by rw [hr, utf16_hexText]⟩
  rw [files_freeSeal, List.forall₂_map_left_iff, List.forall₂_map_right_iff, List.forall₂_same]
  intro e he
  exact ⟨⟨_, rfl, utf16_decode <| hw e <| Cli.sortByRel_perm.mem_iff.mp he⟩, _, rfl, utf16_hexText _⟩

-- The verifier in Rust reads the text which the free sealer in JavaScript writes, and localizes what has changed since.
theorem verify_serializeEvidenceSeal (fs : FileSystem) (h : buildEvidenceSeal Keccak.keccak256 S = .ok s)
    (hw : ∀ e ∈ S, WellFormed e.relPath) :
    ∃ text v r, serializeEvidenceSeal s = some (utf16 text) ∧ RustJson.parse text = .ok v ∧
      verify_evidence_seal fs v = .ok r ∧ Localizes fs S r := by
  have hl : S.length ≤ 25 := by
    have h := h
    simp only [buildEvidenceSeal, bind_eq_ok] at h
    obtain ⟨_, hs, -⟩ := h
    exact (Verifier.SealEvidence.normalizeEntries_eq_ok.mp hs).right.right.left
  obtain ⟨hn, -, hs⟩ := of_buildEvidenceSeal h
  have hln : S.map (leafDigest Keccak.keccak256) ≠ [] := by simpa using hn
  obtain ⟨root, hroot⟩ := Verifier.exists_rootOf Keccak.keccak256 hln
  have hr : (freeSeal Keccak.keccak256 S).root = some (hexlify root) := by
    rw [freeSeal, hroot]
    rfl
  obtain ⟨text, ht, hp⟩ := parse_line <| readAs_freeSeal hl hw hr
  obtain ⟨r, hv, hloc⟩ := localizes_of_reads fs h <| hs ▸ reads_sealFields hw hr
  refine ⟨text, _, r, ?_, hp, hv, hloc⟩
  rw [hs]
  exact ht

-- A directory which holds nothing but a file `a`.
def holdsA : FileSystem where
  is_absolute p := p.head? = some '/'
  read p        := if p = ['a'] then some Cli.entryA.bytes else none
  starts_with _ := some true

theorem verify_serializeEvidenceSeal_ab :
    ∃ s, buildEvidenceSeal Keccak.keccak256 [Cli.entryA, Cli.entryB] = .ok s ∧
      ∃ text v r, serializeEvidenceSeal s = some (utf16 text) ∧ RustJson.parse text = .ok v ∧
        verify_evidence_seal holdsA v = .ok r ∧ Localizes holdsA [Cli.entryA, Cli.entryB] r := by
  have hb : buildEvidenceSeal Keccak.keccak256 [Cli.entryA, Cli.entryB] = .ok _ :=
    Verifier.SealEvidence.buildEvidenceSeal_eq (by simp) (by decide) ⟨by decide, by decide, by decide⟩
  have hw : ∀ e ∈ [Cli.entryA, Cli.entryB], WellFormed e.relPath :=
    List.forall_mem_cons.mpr ⟨⟨['a'], by decide⟩, by simpa using ⟨['b'], by decide⟩⟩
  exact ⟨_, hb, verify_serializeEvidenceSeal holdsA hb hw⟩

end

end

end VerifierRs
