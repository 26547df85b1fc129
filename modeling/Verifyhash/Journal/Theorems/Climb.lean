import Verifyhash.Journal.Log

namespace JournalLog

open Hex MerkleLog

variable (keccak256 : Bytes → Bytes32)

theorem getBytes_LEAF_PREFIX : getBytes LEAF_PREFIX = [0] := by
  decide +kernel

theorem getBytes_NODE_PREFIX : getBytes NODE_PREFIX = [1] := by
  decide +kernel

-- The log of the source as an instance of the ordered Merkle tree over 32-byte values.
def scheme : LogScheme Bytes Bytes32 Bytes32 where
  toScheme := tagged keccak256
  empty    := keccak256 <| .ofAscii EMPTY_ROOT_DOMAIN

-- A climb over strings, of which the chains of the source are special cases.
def fold (acc : JsString) : Side × JsString → JsString
  | (.left, h)  => nodeHash keccak256 acc h
  | (.right, h) => nodeHash keccak256 h acc

def climb (seed : JsString) (steps : List (Side × JsString)) : JsString :=
  steps.foldl (fold keccak256) seed

def bytesOf (steps : List (Side × JsString)) : List (Side × Bytes32) :=
  steps.map fun (s, h) => (s, toBytes32 h)

variable {keccak256}

theorem leafHash_eq (h : isHex32 leaf) :
    leafHash keccak256 leaf = hexlify ((scheme keccak256).leaf <| toBytes32 leaf) := by
  rw [leafHash, getBytes_eq h, getBytes_LEAF_PREFIX]
  rfl

theorem nodeHash_eq (hl : isHex32 left) (hr : isHex32 right) :
    nodeHash keccak256 left right =
      hexlify ((scheme keccak256).node (toBytes32 left) (toBytes32 right)) := by
  rw [nodeHash, getBytes_eq hl, getBytes_eq hr, getBytes_NODE_PREFIX]
  rfl

theorem mth_nil : mth keccak256 [] = hexlify (scheme keccak256).empty := by
  rw [mth]
  rfl

theorem mth_singleton : mth keccak256 [leaf] = leafHash keccak256 leaf := by
  rw [mth]
  rfl

theorem mth_split (h : 2 ≤ data.length) :
    mth keccak256 data =
      nodeHash keccak256 (mth keccak256 <| data.take <| split data.length)
        (mth keccak256 <| data.drop <| split data.length) := by
  rw [mth, if_neg (by omega), dif_neg (by omega), largestPowerOfTwoLessThan_eq h]

theorem mth_eq (h : ∀ leaf ∈ data, isHex32 leaf) :
    mth keccak256 data = hexlify ((scheme keccak256).root <| data.map toBytes32) := by
  induction hl : data.length using Nat.strong_induction_on generalizing data
  case h n ih =>
    match data with
    | []     => rw [mth_nil, List.map_nil, LogScheme.root_nil]
    | [leaf] => rw [mth_singleton, leafHash_eq (h _ <| by simp), List.map_singleton,
        LogScheme.root_singleton]
    | a :: b :: rest =>
      generalize hd : a :: b :: rest = data at *
      have h₂ : 2 ≤ data.length := by simp [←hd]
      have hs := split_lt h₂
      have hp := split_pos (n := data.length)
      rw [mth_split h₂,
        ih _ (by simp; omega) (fun _ hm => h _ <| List.mem_of_mem_take hm) rfl,
        ih _ (by simp; omega) (fun _ hm => h _ <| List.mem_of_mem_drop hm) rfl,
        nodeHash_eq (by simp) (by simp), toBytes32_hexlify, toBytes32_hexlify,
        LogScheme.root_split (show 2 ≤ (data.map toBytes32).length by simpa using h₂),
        List.length_map, List.map_take, List.map_drop]

variable (keccak256) in
theorem path_eq (h : i < data.length) (hd : ∀ leaf ∈ data, isHex32 leaf) :
    path keccak256 i data = ((scheme keccak256).path i <| data.map toBytes32).map hexlify := by
  fun_induction path keccak256 i data
  case case1 => rw [LogScheme.path, if_pos (by simp; omega), List.map_nil]
  case case2 i data k h₁ hi ih =>
    have hk : k = split data.length := largestPowerOfTwoLessThan_eq (by omega)
    have hl := split_lt (n := data.length) (by omega)
    have ht := fun leaf hm => hd leaf <| List.mem_of_mem_take (i := k) hm
    rw [LogScheme.path_left (by simp; omega) (by simpa [←hk]), ih (by simp; omega) ht,
      mth_eq fun _ hm => hd _ <| List.mem_of_mem_drop hm]
    simp [hk]
  case case3 i data k h₁ hi ih =>
    have hk : k = split data.length := largestPowerOfTwoLessThan_eq (by omega)
    have hm := fun leaf hm => hd leaf <| List.mem_of_mem_drop (i := k) hm
    rw [LogScheme.path_right (by simp; omega) (by simpa [←hk] using hi), ih (by simp; omega) hm,
      mth_eq fun _ hm => hd _ <| List.mem_of_mem_take hm]
    simp [hk]

-- The generator leaves out the seed as long as the way up was all left.
theorem subproof_eq (h₀ : 0 < m) (h : m ≤ data.length) (hd : ∀ leaf ∈ data, isHex32 leaf) :
    subproof keccak256 m data b =
      (if b ∧ ∀ s ∈ shared m data.length, s = .left then [] else
        [hexlify ((scheme keccak256).root <| LogScheme.seedLeaves m <| data.map toBytes32)]) ++
      ((scheme keccak256).siblings m <| data.map toBytes32).map hexlify := by
  fun_induction subproof keccak256 m data b
  case case1 data =>
    rw [LogScheme.siblings_self (by simp), LogScheme.seedLeaves_self (by simp), shared_self]
    simp
  case case2 data hb =>
    rw [LogScheme.siblings_self (by simp), LogScheme.seedLeaves_self (by simp), mth_eq hd]
    simp [hb]
  case case3 => omega
  case case4 m data b k hm h₁ hk ih =>
    have hs : k = split data.length := largestPowerOfTwoLessThan_eq (by omega)
    have hl : (data.take <| split data.length).length = split data.length :=
      LogScheme.length_take_split (by omega)
    have ht := fun leaf hm => hd leaf <| List.mem_of_mem_take (i := k) hm
    rw [LogScheme.siblings_left (by simp; omega) (by simp; omega) (by simpa [←hs]),
      LogScheme.seedLeaves_left (by simp; omega) (by simp; omega) (by simpa [←hs]),
      shared_left (by omega) (by omega) (by omega), ih h₀ (by simp; omega) ht,
      mth_eq fun _ hm => hd _ <| List.mem_of_mem_drop hm, hs, hl]
    simp [or_imp]
  case case5 m data b k hm h₁ hk ih =>
    have hs : k = split data.length := largestPowerOfTwoLessThan_eq (by omega)
    have ht := fun leaf hm => hd leaf <| List.mem_of_mem_drop (i := k) hm
    rw [LogScheme.siblings_right (by simp; omega) (by simp; omega) (by simp [←hs]; omega),
      LogScheme.seedLeaves_right (by simp; omega) (by simp; omega) (by simp [←hs]; omega),
      shared_right (by omega) (by omega) (by omega), ih (by omega) (by simp; omega) ht,
      mth_eq fun _ hm => hd _ <| List.mem_of_mem_take hm]
    simp [hs, or_imp, forall_and]

section

variable {siblings : List JsString} {steps : List (Side × JsString)}

theorem climb_append :
    climb keccak256 seed (s₁ ++ s₂) = climb keccak256 (climb keccak256 seed s₁) s₂ :=
  List.foldl_append

theorem chainInner_eq (i : ℕ) :
    chainInner keccak256 seed siblings i =
      climb keccak256 seed ((bitSides i 0 siblings.length).zip siblings) := by
  rw [chainInner]
  generalize 0 = level
  induction siblings generalizing seed level
  case nil => simp [climb]
  case cons ih =>
    rw [List.zipIdx_cons, List.foldl_cons, ih, List.length_cons, bitSides_cons, List.zip_cons_cons]
    simp only [bitAt_natCast, bitSide]
    cases i.testBit level <;> rfl

theorem chainInnerRight_eq (i : ℕ) :
    chainInnerRight keccak256 seed siblings i =
      climb keccak256 seed (LogScheme.rights <| (bitSides i 0 siblings.length).zip siblings) := by
  rw [chainInnerRight]
  generalize 0 = level
  induction siblings generalizing seed level
  case nil => simp [climb, LogScheme.rights]
  case cons ih =>
    rw [List.zipIdx_cons, List.foldl_cons, ih, List.length_cons, bitSides_cons, List.zip_cons_cons]
    simp only [bitAt_natCast, bitSide]
    cases i.testBit level <;> rfl

theorem chainBorderRight_eq :
    chainBorderRight keccak256 seed siblings =
      climb keccak256 seed ((List.replicate siblings.length .right).zip siblings) := by
  rw [chainBorderRight]
  induction siblings generalizing seed
  case nil       => rfl
  case cons _ ih => exact ih

theorem rights_replicate :
    LogScheme.rights ((List.replicate n Side.right).zip siblings) =
      (List.replicate n Side.right).zip siblings := by
  apply List.filter_eq_self.mpr
  intro ⟨s, _⟩ h
  simpa using List.eq_of_mem_replicate (List.of_mem_zip h).left

variable (keccak256) in
-- The verifiers fold the siblings of the inner levels first, and those of the border after them.
theorem chain_eq (seed) (h : siblings.length = a + b) (i : ℕ) :
    chainBorderRight keccak256 (chainInner keccak256 seed (siblings.take a) i) (siblings.drop a) =
      climb keccak256 seed ((bitSides i 0 a ++ List.replicate b Side.right).zip siblings) := by
  have ha : (siblings.take a).length = a := by simp; omega
  have hb : (siblings.drop a).length = b := by simp; omega
  conv => rhs; rw [←List.take_append_drop a siblings]
  rw [chainBorderRight_eq, chainInner_eq, ha, hb, List.zip_append (by simpa using ha.symm), climb_append]

variable (keccak256) in
theorem chain_rights_eq (seed) (h : siblings.length = a + b) (i : ℕ) :
    chainBorderRight keccak256 (chainInnerRight keccak256 seed (siblings.take a) i) (siblings.drop a) =
      climb keccak256 seed
        (LogScheme.rights <| (bitSides i 0 a ++ List.replicate b Side.right).zip siblings) := by
  have ha : (siblings.take a).length = a := by simp; omega
  have hb : (siblings.drop a).length = b := by simp; omega
  conv => rhs; rw [←List.take_append_drop a siblings]
  rw [chainBorderRight_eq, chainInnerRight_eq, ha, hb, List.zip_append (by simpa using ha.symm),
    LogScheme.rights_append, climb_append, rights_replicate]

theorem fold_eq (hs : isHex32 acc) (h : isHex32 step.snd) :
    fold keccak256 acc step =
      hexlify ((scheme keccak256).fold (toBytes32 acc) (step.fst, toBytes32 step.snd)) := by
  match step with
  | (.left, _)  => exact nodeHash_eq hs h
  | (.right, _) => exact nodeHash_eq h hs

theorem climb_hexlify (h : ∀ step ∈ steps, isHex32 step.snd) :
    climb keccak256 (hexlify w) steps = hexlify ((scheme keccak256).climb w <| bytesOf steps) := by
  induction steps generalizing w
  case nil => rfl
  case cons ih =>
    have ⟨h₁, h₂⟩ := List.forall_mem_cons.mp h
    rw [climb, List.foldl_cons, fold_eq (by simp) h₁, toBytes32_hexlify]
    exact ih h₂

-- The result of at least one step is spelled as hashes are, whatever the spelling of the seed.
theorem climb_of_ne_nil (hs : isHex32 seed) (h : ∀ step ∈ steps, isHex32 step.snd) (hn : steps ≠ []) :
    climb keccak256 seed steps = hexlify ((scheme keccak256).climb (toBytes32 seed) <| bytesOf steps) := by
  match steps, hn with
  | _ :: _, _ =>
    have ⟨h₁, h₂⟩ := List.forall_mem_cons.mp h
    rw [climb, List.foldl_cons, fold_eq hs h₁]
    exact climb_hexlify h₂

theorem bytesOf_zip : bytesOf (List.zip ss siblings) = ss.zip (siblings.map toBytes32) := by
  rw [List.zip_map_right]
  rfl

theorem bytesOf_rights : bytesOf (LogScheme.rights steps) = LogScheme.rights (bytesOf steps) := by
  simp only [bytesOf, LogScheme.rights, List.filter_map]
  rfl

end

end JournalLog
