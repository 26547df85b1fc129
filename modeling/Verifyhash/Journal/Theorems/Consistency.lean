import Verifyhash.Journal.Theorems.Inclusion

namespace JournalLog

open Hex Value MerkleLog

variable {keccak256 : Bytes → Bytes32} {leaves siblings pth : List JsString} {m n : ℕ}

theorem trailingZeros_eq_iff (h : 0 < m) : m = 2 ^ trailingZeros m ↔ ∃ t, m = 2 ^ t where
  mp h := ⟨_, h⟩
  mpr := fun ⟨t, ht⟩ => by
    have ⟨_, hq⟩ := trailingZeros_spec _ h
    rw [trailing_unique <| hq.symm.trans ht, ←ht]

theorem headRoot_head (r : Value) (size : ℤ) :
    headRoot (treeHead.head s r) size = if (s : ℤ) = size then r else null := by
  simp only [headRoot, isObject_head, get_size_head, get_root_head, toInt?_nat, if_true, ne_eq, ite_not]

theorem verifyConsistency_head (h₁ : IsHead head₁ s₁ r₁) (h₂ : IsHead head₂ s₂ r₂) :
    verifyConsistency keccak256 proof head₁ head₂ =
      verifyConsistency keccak256 proof (treeHead.head s₁ r₁) (treeHead.head s₂ r₂) := by
  have hr {head s r size} (h : IsHead head s r) : headRoot head size = headRoot (treeHead.head s r) size := by
    simp only [headRoot, h.isObject, h.size, h.root, isObject_head, get_size_head, get_root_head, if_true]
  simp only [verifyConsistency, hr h₁, hr h₂]

-- What the verifier checks for two sizes `0 < m < n`: the siblings lead from the seed to both roots.
-- The seed comes first in the path, unless the first root is the seed.
structure Links (keccak256 : Bytes → Bytes32) (m n : ℕ) (first second : JsString)
    (pth : List JsString) (seed : JsString) (siblings : List JsString) : Prop where
  path_eq : if m = 2 ^ trailingZeros m then seed = first ∧ pth = siblings else pth = seed :: siblings
  length  : siblings.length = (shared m n).length
  climb₁  : climb keccak256 seed (LogScheme.rights <| (shared m n).zip siblings) = first
  climb₂  : climb keccak256 seed ((shared m n).zip siblings) = second

theorem fold_eq_some_iff (h₀ : 0 < m) (h : m < n) :
    verifyConsistency.fold keccak256 m n first second pth = some () ↔
      ∃ seed siblings, Links keccak256 m n first second pth seed siblings := by
  obtain ⟨q, hq⟩ := trailingZeros_spec m h₀
  have hs := shared_eq_bits hq h
  have hm : (m : ℤ) - 1 = (m - 1 : ℕ) := by omega
  have hp : (m : ℤ) = 2 ^ trailingZeros m ↔ m = 2 ^ trailingZeros m := by norm_cast
  have hl (siblings : List JsString) :
      siblings.length = (shared m n).length ↔
        (siblings.length : ℤ) = (MerkleLog.inner (m - 1) n - trailingZeros m : ℕ) + border (m - 1) n := by
    rw [hs, List.length_append, length_bitSides, List.length_replicate]
    omega
  have hc (siblings : List JsString) (seed) (hlen : siblings.length = (shared m n).length) :=
    have hlen : siblings.length = (MerkleLog.inner (m - 1) n - trailingZeros m) + border (m - 1) n := by
      simpa [hs] using hlen
    And.intro (chain_eq keccak256 seed hlen ((m - 1) >>> trailingZeros m))
      (chain_rights_eq keccak256 seed hlen ((m - 1) >>> trailingZeros m))
  have hn := List.length_pos_of_ne_nil <| shared_ne_nil h₀ h
  simp only [verifyConsistency.fold, hm, bitLength_xor (show m - 1 < n by omega), shr_natCast,
    onesCount_natCast, hp, Option.bind_eq_bind, Option.bind_eq_some_iff, Option.guard_eq_some',
    Unique.exists_iff]
  simp only [←hs] at hc
  constructor
  · rintro ⟨h₁, ⟨seed, start⟩, hb, hlen, hc₁, hc₂⟩
    split_ifs at hb with h₂
    case pos =>
      obtain ⟨rfl, rfl⟩ : first = seed ∧ 0 = start := by simpa using hb
      have hlen := (hl pth).mpr <| by simpa [border] using hlen
      exact ⟨first, pth, by rw [if_pos h₂]; simp, hlen, (hc _ _ hlen).right ▸ hc₁, (hc _ _ hlen).left ▸ hc₂⟩
    case neg =>
      cases pth
      case nil => exact absurd rfl h₁
      case cons hd tl =>
        obtain ⟨rfl, rfl⟩ : hd = seed ∧ 1 = start := by simpa using hb
        have hlen := (hl tl).mpr <| by simp [border] at hlen ⊢; omega
        exact ⟨hd, tl, by rw [if_neg h₂], hlen, (hc _ _ hlen).right ▸ hc₁, (hc _ _ hlen).left ▸ hc₂⟩
  · rintro ⟨seed, siblings, hpth, hlen, hc₁, hc₂⟩
    have hl := (hl _).mp hlen
    rw [←(hc _ _ hlen).right] at hc₁
    rw [←(hc _ _ hlen).left] at hc₂
    split_ifs at hpth with h₂
    case pos =>
      obtain ⟨rfl, rfl⟩ := hpth
      exact ⟨by omega, (seed, 0), if_pos h₂, by simp [hl, border], hc₁, hc₂⟩
    case neg =>
      obtain rfl := hpth
      exact ⟨by simp, (seed, 1), by rw [if_neg h₂]; rfl, by simp [hl, border]; omega, hc₁, hc₂⟩

theorem verifyConsistency_iff (hs : isHex32 second)
    (hm : (proof.get "firstSize").toInt? = some (m : ℤ)) :
    verifyConsistency keccak256 proof (treeHead.head m r) (treeHead.head n <| string second) ↔
      ∃ first pth, proof.isObject ∧ (proof.get "secondSize").toInt? = some (n : ℤ) ∧
        r.hex32? = some first ∧ (proof.get "path").allHex32? = some pth ∧
        (m = n ∧ pth = [] ∧ first = second ∨ m = 0 ∧ 0 < n ∧ pth = [] ∨
          0 < m ∧ m < n ∧ ∃ seed siblings, Links keccak256 m n first second pth seed siblings) := by
  have hsize (size : ℤ) (s : JsString) :
      (headRoot (treeHead.head n <| string second) size).hex32? = some s ↔ n = size ∧ second = s := by
    rw [headRoot_head]
    split_ifs with h <;> simp [hs, h, hex32?]
  simp only [verifyConsistency, Option.bind_eq_bind, hm, Option.isSome_iff_exists,
    Option.bind_eq_some_iff, hsize, headRoot_head _ (m : ℤ), if_true, Option.guard_eq_some',
    Unique.exists_iff, Option.some.injEq, exists_eq_left']
  constructor
  · rintro ⟨ho, _, hn, first, hf, _, ⟨rfl, rfl⟩, pth, hp, h⟩
    refine ⟨first, pth, ho, hn, hf, hp, ?_⟩
    split_ifs at h with h₁ h₂ h₃
    · rw [Option.guard_eq_some', List.length_eq_zero_iff] at h
      exact .inl ⟨by omega, h⟩
    · rw [Option.guard_eq_some', List.length_eq_zero_iff] at h
      exact .inr <| .inl ⟨by omega, by omega, h⟩
    · exact .inr <| .inr ⟨by omega, by omega, fold_eq_some_iff (by omega) (by omega) |>.mp h⟩
  · rintro ⟨first, pth, ho, hn, hf, hp, h⟩
    refine ⟨ho, _, hn, first, hf, _, ⟨rfl, rfl⟩, pth, hp, ?_⟩
    rcases h with ⟨rfl, rfl, rfl⟩ | ⟨rfl, h₀, rfl⟩ | ⟨h₀, hl, h⟩
    · rw [if_neg (by omega), if_pos rfl]
      exact (Option.guard_eq_some' ()).mpr ⟨rfl, rfl⟩
    · rw [if_neg (by omega), if_neg (by omega), if_pos (by simp)]
      exact (Option.guard_eq_some' ()).mpr rfl
    · rw [if_neg (by omega), if_neg (by omega), if_neg (by omega)]
      exact fold_eq_some_iff h₀ hl |>.mpr h

-- The seed and the siblings spell the bytes of the subtrees which connect the tree of the first `m`
-- leaves to the whole tree.
structure Genuine (keccak256 : Bytes → Bytes32) (m : ℕ) (leaves : List JsString) (seed : JsString)
    (siblings : List JsString) : Prop where
  seed_hex     : isHex32 seed
  siblings_hex : ∀ s ∈ siblings, isHex32 s
  seed_eq      :
    toBytes32 seed = (scheme keccak256).root (LogScheme.seedLeaves m <| leaves.map toBytes32)
  siblings_eq  : siblings.map toBytes32 = (scheme keccak256).siblings m (leaves.map toBytes32)

namespace Genuine

theorem length (g : Genuine keccak256 m leaves seed siblings) (h₀ : 0 < m) (h : m ≤ leaves.length) :
    siblings.length = (shared m leaves.length).length := by
  have := congrArg List.length g.siblings_eq
  rwa [List.length_map, LogScheme.siblings_length h₀ (by simpa), List.length_map] at this

theorem isHex32_step (g : Genuine keccak256 m leaves seed siblings) :
    ∀ step ∈ (shared m n).zip siblings, isHex32 step.snd :=
  fun _ hm => g.siblings_hex _ (List.of_mem_zip hm).right

theorem isHex32_right (g : Genuine keccak256 m leaves seed siblings) :
    ∀ step ∈ LogScheme.rights ((shared m n).zip siblings), isHex32 step.snd :=
  fun _ hm => g.isHex32_step _ <| List.mem_of_mem_filter hm

theorem climb_eq (g : Genuine keccak256 m leaves seed siblings) (hd : ∀ leaf ∈ leaves, isHex32 leaf)
    (h₀ : 0 < m) (h : m < leaves.length) :
    climb keccak256 seed ((shared m leaves.length).zip siblings) = mth keccak256 leaves := by
  have hn := zip_shared_ne_nil h₀ h <| g.length h₀ h.le
  have hl : m ≤ (leaves.map toBytes32).length := by simpa using h.le
  have hc := (LogScheme.descends_siblings (S := scheme keccak256) h₀ hl).climb
  rw [climb_of_ne_nil g.seed_hex g.isHex32_step hn, bytesOf_zip, g.seed_eq, g.siblings_eq, mth_eq hd,
    ←hc, List.length_map]

theorem root_take (g : Genuine keccak256 m leaves seed siblings) (h₀ : 0 < m) (h : m ≤ leaves.length) :
    (scheme keccak256).climb (toBytes32 seed)
      (bytesOf <| LogScheme.rights <| (shared m leaves.length).zip siblings) =
    (scheme keccak256).root ((leaves.take m).map toBytes32) := by
  have hl : m ≤ (leaves.map toBytes32).length := by simpa
  have hc := LogScheme.climb_rights (S := scheme keccak256) h₀ hl
  rw [bytesOf_rights, bytesOf_zip, g.seed_eq, g.siblings_eq, List.map_take, ←hc, List.length_map]

-- If the first `m` leaves form a complete tree, its root is the seed.
theorem climb_rights_complete (g : Genuine keccak256 m leaves seed siblings) (h₀ : 0 < m)
    (h : m < leaves.length) (hm : ∃ t, m = 2 ^ t) :
    climb keccak256 seed (LogScheme.rights <| (shared m leaves.length).zip siblings) = seed := by
  rw [(LogScheme.rights_eq_nil_iff h₀ h <| g.length h₀ h.le).mpr hm]
  rfl

theorem climb_rights (g : Genuine keccak256 m leaves seed siblings)
    (hd : ∀ leaf ∈ leaves, isHex32 leaf) (h₀ : 0 < m)
    (h : m < leaves.length) (hm : ¬∃ t, m = 2 ^ t) :
    climb keccak256 seed (LogScheme.rights <| (shared m leaves.length).zip siblings) =
      mth keccak256 (leaves.take m) := by
  have hr := (LogScheme.rights_eq_nil_iff h₀ h <| g.length h₀ h.le).not.mpr hm
  rw [climb_of_ne_nil g.seed_hex g.isHex32_right hr, g.root_take h₀ h.le,
    mth_eq fun _ hl => hd _ <| List.mem_of_mem_take hl]

-- Without collisions only the genuine siblings lead from a seed to the root of the whole tree.
theorem of_climb (hd : ∀ leaf ∈ leaves, isHex32 leaf) (h₀ : 0 < m) (h : m < leaves.length)
    (hx : isHex32 seed) (hs : ∀ s ∈ siblings, isHex32 s)
    (hl : siblings.length = (shared m leaves.length).length)
    (hc : climb keccak256 seed ((shared m leaves.length).zip siblings) = mth keccak256 leaves)
    (c : CollisionFree keccak256 (treeHeadInputs keccak256 leaves ++
      (scheme keccak256).climbInputs (toBytes32 seed)
        ((shared m leaves.length).zip <| siblings.map toBytes32))) :
    Genuine keccak256 m leaves seed siblings := by
  have hn := zip_shared_ne_nil h₀ h hl
  have hm : m ≤ (leaves.map toBytes32).length := by simpa using h.le
  have d := LogScheme.descends_siblings (S := scheme keccak256) h₀ hm
  have hsl := LogScheme.siblings_length (S := scheme keccak256) h₀ hm
  rw [List.length_map] at d hsl
  rw [climb_of_ne_nil hx (fun _ hm => hs _ (List.of_mem_zip hm).right) hn, bytesOf_zip, mth_eq hd] at hc
  have ⟨hseed, hsteps⟩ := d.climb_inj (by simp [List.map_fst_zip, hl, hsl]) (hexlify_inj hc) c
  have hsteps := congrArg (List.map Prod.snd) hsteps
  rw [List.map_snd_zip (by simp [hl]), List.map_snd_zip (by simp [hsl])] at hsteps
  exact ⟨hx, hs, hseed, hsteps⟩

end Genuine

section

variable (keccak256)

-- The inputs which are hashed on the way to the second root.
def verifyConsistencyInputs (proof firstRoot : Value) : List Bytes :=
  let inputs? : Option (List Bytes) := do
    let m ← (proof.get "firstSize").toInt?
    let n ← (proof.get "secondSize").toInt?
    let first ← (headRoot firstRoot m).hex32?
    let pth ← (proof.get "path").allHex32?
    let complete : Bool := m = 2 ^ trailingZeros m
    let seed := if complete then first else pth.headD []
    let siblings := if complete then pth else pth.tail
    let steps := (shared m.toNat n.toNat).zip <| siblings.map toBytes32
    return (scheme keccak256).climbInputs (toBytes32 seed) steps
  inputs?.getD []

end

namespace Links

theorem hex (l : Links keccak256 m n first second pth seed siblings) (hf : isHex32 first)
    (hp : ∀ s ∈ pth, isHex32 s) : isHex32 seed ∧ ∀ s ∈ siblings, isHex32 s := by
  have := l.path_eq
  split_ifs at this
  case pos =>
    obtain ⟨rfl, rfl⟩ := this
    exact ⟨hf, hp⟩
  case neg =>
    subst this
    exact List.forall_mem_cons.mp hp

theorem inputs_eq (l : Links keccak256 m n first second pth seed siblings)
    (hm : (proof.get "firstSize").toInt? = some (m : ℤ))
    (hn : (proof.get "secondSize").toInt? = some (n : ℤ)) (hf : r.hex32? = some first)
    (hp : (proof.get "path").allHex32? = some pth) :
    verifyConsistencyInputs keccak256 proof (treeHead.head m r) =
      (scheme keccak256).climbInputs (toBytes32 seed)
        ((shared m n).zip <| siblings.map toBytes32) := by
  have hc : (m : ℤ) = 2 ^ trailingZeros m ↔ m = 2 ^ trailingZeros m := by norm_cast
  have := l.path_eq
  simp only [verifyConsistencyInputs, hm, hn, headRoot_head, if_true, hf, hp, hc,
    Option.bind_eq_bind, Option.bind_some, Option.pure_def, Option.getD_some, Int.toNat_natCast,
    decide_eq_true_eq]
  split_ifs at this ⊢
  case pos =>
    obtain ⟨rfl, rfl⟩ := this
    rfl
  case neg =>
    subst this
    rfl

end Links

section

variable (keccak256)

-- The inputs for which the verifier accepts a root of the first `m` leaves that it should not: every
-- root of an empty log, and every spelling of the root of a complete tree.
def Unchecked (leaves : List JsString) (m : ℕ) (proof r : Value) : Prop :=
  proof.isObject ∧ (proof.get "secondSize").toInt? = some (leaves.length : ℤ) ∧
  ∃ first pth, r.hex32? = some first ∧ (proof.get "path").allHex32? = some pth ∧
    (m = 0 ∧ 0 < leaves.length ∧ pth = [] ∧ first ≠ EMPTY_ROOT keccak256 ∨
      (∃ t, m = 2 ^ t) ∧ m < leaves.length ∧ first ≠ mth keccak256 (leaves.take m) ∧
        toBytes32 first = toBytes32 (mth keccak256 <| leaves.take m) ∧
        pth.map toBytes32 = (subproof keccak256 m leaves true).map toBytes32)

end

theorem mth_take_root (hd : ∀ leaf ∈ leaves, isHex32 leaf) :
    (treeHead keccak256 <| ofStrings <| leaves.take m).get "root" =
      string (mth keccak256 <| leaves.take m) := by
  rw [treeHead_ofStrings fun _ hl => hd _ <| List.mem_of_mem_take hl, get_root_head]

theorem subproof_complete (hd : ∀ leaf ∈ leaves, isHex32 leaf) (h₀ : 0 < m)
    (h : m < leaves.length) (hm : ∃ t, m = 2 ^ t) :
    (subproof keccak256 m leaves true).map toBytes32 =
      (scheme keccak256).siblings m (leaves.map toBytes32) := by
  rw [subproof_eq h₀ h.le hd, if_pos ⟨rfl, (shared_left_iff h₀ h).mpr hm⟩, List.nil_append,
    map_toBytes32_hexlify]

variable (keccak256) in
theorem root_seedLeaves (hd : ∀ leaf ∈ leaves, isHex32 leaf) (h₀ : 0 < m) (h : m < leaves.length)
    (hm : ∃ t, m = 2 ^ t) :
    (scheme keccak256).root (LogScheme.seedLeaves m <| leaves.map toBytes32) =
      toBytes32 (mth keccak256 <| leaves.take m) := by
  rw [LogScheme.root_seedLeaves h₀ (by simpa) hm, mth_eq fun _ hl => hd _ <| List.mem_of_mem_take hl,
    toBytes32_hexlify, List.map_take]

theorem Unchecked.accepted (hd : ∀ leaf ∈ leaves, isHex32 leaf)
    (hm : (proof.get "firstSize").toInt? = some (m : ℤ)) (u : Unchecked keccak256 leaves m proof r) :
    verifyConsistency keccak256 proof (treeHead.head m r) (treeHead keccak256 <| ofStrings leaves) := by
  obtain ⟨ho, hn, first, pth, hf, hp, h⟩ := u
  refine treeHead_ofStrings hd ▸ verifyConsistency_iff (isHex32_mth keccak256 hd) hm |>.mpr
    ⟨first, pth, ho, hn, hf, hp, ?_⟩
  rcases h with ⟨h₀, hl, hp, _⟩ | ⟨ht, hl, _, hb, hpth⟩
  case inl => exact .inr <| .inl ⟨h₀, hl, hp⟩
  case inr =>
    have h₀ : 0 < m := by
      obtain ⟨t, rfl⟩ := ht
      exact Nat.two_pow_pos t
    have g : Genuine keccak256 m leaves first pth := {
      seed_hex     := (hex32?_eq_some.mp hf).right
      siblings_hex := (allHex32?_eq_some.mp hp).right
      seed_eq      := hb.trans (root_seedLeaves keccak256 hd h₀ hl ht).symm
      siblings_eq  := hpth.trans <| subproof_complete hd h₀ hl ht
    }
    refine .inr <| .inr ⟨h₀, hl, first, pth, ?_, g.length h₀ hl.le, ?_, g.climb_eq hd h₀ hl⟩
    · rw [if_pos <| (trailingZeros_eq_iff h₀).mpr ht]
      exact ⟨rfl, rfl⟩
    · exact g.climb_rights_complete h₀ hl ht

-- The verifier accepts only the root of the first `m` leaves, except for the roots it does not check.
theorem verifyConsistency_binds_iff (hd : ∀ leaf ∈ leaves, isHex32 leaf)
    (hm : (proof.get "firstSize").toInt? = some (m : ℤ))
    (c : CollisionFree keccak256 (treeHeadInputs keccak256 leaves ++
      verifyConsistencyInputs keccak256 proof (treeHead.head m r))) :
    (verifyConsistency keccak256 proof (treeHead.head m r) (treeHead keccak256 <| ofStrings leaves) →
      m ≤ leaves.length ∧ (proof.get "secondSize").toInt? = some (leaves.length : ℤ) ∧
      r = (treeHead keccak256 <| ofStrings <| leaves.take m).get "root") ↔
    ¬ Unchecked keccak256 leaves m proof r := by
  rw [mth_take_root hd]
  constructor
  · intro h u
    have ⟨_, _, hr⟩ := h <| u.accepted hd hm
    obtain ⟨_, _, first, pth, hf, _, h⟩ := u
    obtain ⟨rfl⟩ := hr.symm.trans (hex32?_eq_some.mp hf).left
    rcases h with ⟨rfl, -, -, hne⟩ | ⟨-, -, hne, -⟩
    · exact hne <| by rw [List.take_zero, mth_nil, EMPTY_ROOT]; rfl
    · exact hne rfl
  · intro hu ha
    rw [treeHead_ofStrings hd] at ha
    obtain ⟨first, pth, ho, hn, hf, hp, h⟩ := verifyConsistency_iff (isHex32_mth keccak256 hd) hm |>.mp ha
    have ⟨hr, hx⟩ := hex32?_eq_some.mp hf
    have ⟨_, hh⟩ := allHex32?_eq_some.mp hp
    subst hr
    rcases h with ⟨rfl, rfl, rfl⟩ | ⟨rfl, hl, rfl⟩ | ⟨h₀, hl, seed, siblings, h⟩
    · exact ⟨le_rfl, hn, by rw [List.take_length]⟩
    · refine ⟨by omega, hn, ?_⟩
      by_contra hne
      rw [List.take_zero, mth_nil, string.injEq] at hne
      exact hu ⟨ho, hn, first, [], hf, hp, .inl ⟨rfl, hl, rfl, hne⟩⟩
    · refine ⟨hl.le, hn, ?_⟩
      have ⟨hseed, hs⟩ := h.hex hx hh
      rw [h.inputs_eq hm hn hf hp] at c
      have g := Genuine.of_climb hd h₀ hl hseed hs h.length h.climb₂ c
      have hpth := h.path_eq
      by_cases ht : ∃ t, m = 2 ^ t
      case pos =>
        rw [if_pos <| (trailingZeros_eq_iff h₀).mpr ht] at hpth
        obtain ⟨rfl, rfl⟩ := hpth
        have hb := g.seed_eq.trans <| root_seedLeaves keccak256 hd h₀ hl ht
        have hp' := g.siblings_eq.trans (subproof_complete hd h₀ hl ht).symm
        by_contra hne
        rw [string.injEq] at hne
        exact hu ⟨ho, hn, seed, pth, hf, hp, .inr ⟨ht, hl, hne, hb, hp'⟩⟩
      case neg => rw [←h.climb₁, g.climb_rights hd h₀ hl ht]

-- A proof from the first two of the three leaves.
def extensionProof : Value :=
  object [
    (js "firstSize", nat 2),
    (js "secondSize", nat 3),
    (js "path", ofStrings [leafHash Keccak.keccak256 <| hexlify 9])
  ]

def oldRoot : Value :=
  string <| mth Keccak.keccak256 (entries.take 2)

theorem verifyConsistency_binds_iff_entries :
    (verifyConsistency Keccak.keccak256 extensionProof (treeHead.head 2 oldRoot)
        (treeHead Keccak.keccak256 <| ofStrings entries) →
      2 ≤ entries.length ∧ (extensionProof.get "secondSize").toInt? = some (entries.length : ℤ) ∧
      oldRoot = (treeHead Keccak.keccak256 <| ofStrings <| entries.take 2).get "root") ↔
    ¬ Unchecked Keccak.keccak256 entries 2 extensionProof oldRoot :=
  have c : CollisionFree Keccak.keccak256 (treeHeadInputs Keccak.keccak256 entries ++
      verifyConsistencyInputs Keccak.keccak256 extensionProof (treeHead.head 2 oldRoot)) := by
    decide +kernel
  verifyConsistency_binds_iff (by decide +kernel) toInt?_nat c

-- A proof from the empty log, which is accepted for any root.
def emptyProof : Value :=
  object [(js "firstSize", nat 0), (js "secondSize", nat 3), (js "path", ofStrings [])]

theorem verifyConsistency_unchecked :
    CollisionFree Keccak.keccak256 (treeHeadInputs Keccak.keccak256 entries ++
      verifyConsistencyInputs Keccak.keccak256 emptyProof (treeHead.head 0 <| string <| hexlify 7)) ∧
    verifyConsistency Keccak.keccak256 emptyProof (treeHead.head 0 <| string <| hexlify 7)
      (treeHead Keccak.keccak256 <| ofStrings entries) ∧
    string (hexlify 7) ≠ (treeHead Keccak.keccak256 <| ofStrings <| entries.take 0).get "root" :=
  ⟨by decide +kernel, by decide +kernel, fun h => absurd (congrArg hex32? h) (by decide +kernel)⟩

theorem consistencyProof_eq (hd : ∀ leaf ∈ leaves, isHex32 leaf)
    (hm : first.toInt? = some (m : ℤ)) (hn : second.toInt? = some (n : ℤ)) (h₀ : 0 < m) (h : m ≤ n)
    (hl : n ≤ leaves.length) :
    consistencyProof keccak256 (ofStrings leaves) first second =
      object [(js "firstSize", first), (js "secondSize", second), (js "path",
        ofStrings <| if m = n then [] else subproof keccak256 m (leaves.take n) true)] := by
  simp [consistencyProof, allHex32?_eq_some.mpr ⟨rfl, hd⟩, hm, hn, h₀, h, hl, guard]

theorem isHex32_subproof (hd : ∀ leaf ∈ leaves, isHex32 leaf) (h₀ : 0 < m) (h : m ≤ leaves.length) :
    ∀ s ∈ subproof keccak256 m leaves true, isHex32 s := by
  intro s hs
  rw [subproof_eq h₀ h hd] at hs
  split_ifs at hs
  all_goals
    simp only [List.nil_append, List.singleton_append, List.mem_cons, List.mem_map] at hs
    grind [isHex32_hexlify]

variable (keccak256) in
-- The generated path connects the two roots.
theorem links_subproof (hd : ∀ leaf ∈ leaves, isHex32 leaf) (h₀ : 0 < m) (h : m < leaves.length) :
    ∃ seed siblings, Links keccak256 m leaves.length (mth keccak256 <| leaves.take m)
      (mth keccak256 leaves) (subproof keccak256 m leaves true) seed siblings := by
  have g : Genuine keccak256 m leaves
      (hexlify <| (scheme keccak256).root <| LogScheme.seedLeaves m <| leaves.map toBytes32)
      (((scheme keccak256).siblings m <| leaves.map toBytes32).map hexlify) := {
    seed_hex     := isHex32_hexlify _
    siblings_hex := by simp
    seed_eq      := toBytes32_hexlify _
    siblings_eq  := map_toBytes32_hexlify
  }
  refine ⟨_, _, ?_, g.length h₀ h.le, ?_, g.climb_eq hd h₀ h⟩
  all_goals
    have hs := (shared_left_iff h₀ h).trans (trailingZeros_eq_iff h₀).symm
    have hr := root_seedLeaves keccak256 hd h₀ h
    rw [mth_eq fun _ hl => hd _ <| List.mem_of_mem_take hl, toBytes32_hexlify] at hr
  case refine_1 =>
    rw [subproof_eq h₀ h.le hd]
    split_ifs with ht hl hl
    · rw [hr ⟨_, ht⟩, mth_eq fun _ hl => hd _ <| List.mem_of_mem_take hl]
      exact ⟨rfl, rfl⟩
    · exact absurd ⟨rfl, hs.mpr ht⟩ hl
    · exact absurd (hs.mp hl.right) ht
    · rfl
  case refine_2 =>
    by_cases ht : ∃ t, m = 2 ^ t
    case pos =>
      rw [g.climb_rights_complete h₀ h ht, hr ht, mth_eq fun _ hl => hd _ <| List.mem_of_mem_take hl]
    case neg => exact g.climb_rights hd h₀ h ht

variable (keccak256) in
theorem consistencyProof_accepted (hd : ∀ leaf ∈ leaves, isHex32 leaf)
    (hm : first.toInt? = some (m : ℤ)) (hn : second.toInt? = some (n : ℤ)) (h₀ : 1 ≤ m) (h : m ≤ n)
    (hl : n ≤ leaves.length) :
    consistencyProof keccak256 (ofStrings leaves) first second ≠ null ∧
    verifyConsistency keccak256 (consistencyProof keccak256 (ofStrings leaves) first second)
      (treeHead keccak256 <| ofStrings <| leaves.take m)
      (treeHead keccak256 <| ofStrings <| leaves.take n) := by
  have ht (k) : ∀ leaf ∈ leaves.take k, isHex32 leaf := fun _ hl => hd _ <| List.mem_of_mem_take hl
  have hlen {k} (h : k ≤ leaves.length) : (leaves.take k).length = k := by simpa
  rw [consistencyProof_eq hd hm hn h₀ h hl, treeHead_ofStrings (ht _), treeHead_ofStrings (ht _),
    hlen (h.trans hl), hlen hl]
  refine ⟨nofun, verifyConsistency_iff (isHex32_mth keccak256 <| ht n) ?_ |>.mpr ⟨_, _, rfl, hn,
    hex32?_eq_some.mpr ⟨rfl, isHex32_mth keccak256 <| ht m⟩, allHex32?_eq_some.mpr ⟨rfl, ?_⟩, ?_⟩⟩
  · exact hm
  · split_ifs
    · exact nofun
    · exact isHex32_subproof (ht n) h₀ <| by rwa [hlen hl]
  · rcases h.eq_or_lt with rfl | h
    · exact .inl ⟨rfl, if_pos rfl, rfl⟩
    · have hlinks := links_subproof keccak256 (ht n) h₀ <| by rwa [hlen hl]
      rw [hlen hl, List.take_take, min_eq_left h.le] at hlinks
      rw [if_neg h.ne]
      exact .inr <| .inr ⟨h₀, h, hlinks⟩

theorem consistencyProof_complete (hd : ∀ leaf ∈ leaves, isHex32 leaf)
    (hm : first.toInt? = some (m : ℤ)) (hn : second.toInt? = some (n : ℤ)) (h₀ : 1 ≤ m) (h : m ≤ n)
    (hl : n ≤ leaves.length) :
    consistencyProof keccak256 (ofStrings leaves) first second ≠ null ∧
    verifyConsistency keccak256 (consistencyProof keccak256 (ofStrings leaves) first second)
      (treeHead keccak256 <| ofStrings <| leaves.take m)
      (treeHead keccak256 <| ofStrings <| leaves.take n) :=
  consistencyProof_accepted keccak256 hd hm hn h₀ h hl

theorem consistencyProof_complete_entries :
    consistencyProof Keccak.keccak256 (ofStrings entries) (nat 2) (nat 3) ≠ null ∧
    verifyConsistency Keccak.keccak256
      (consistencyProof Keccak.keccak256 (ofStrings entries) (nat 2) (nat 3))
      (treeHead Keccak.keccak256 <| ofStrings <| entries.take 2)
      (treeHead Keccak.keccak256 <| ofStrings <| entries.take 3) :=
  consistencyProof_complete (by decide +kernel) toInt?_nat toInt?_nat (by decide) (by decide)
    (by decide)

end JournalLog
