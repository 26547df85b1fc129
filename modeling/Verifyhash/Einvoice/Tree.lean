import Mathlib

-- A string of Python.
abbrev Str := List Char

def str (s : String) : Str :=
  s.toList

namespace Str

-- `c.isspace()`
def isSpace (c : Char) : Bool :=
  c.val ∈ [0x85, 0xA0, 0x1680, 0x2028, 0x2029, 0x202F, 0x205F, 0x3000] ∨ (9 ≤ c.val ∧ c.val ≤ 13) ∨
    (0x1C ≤ c.val ∧ c.val ≤ 0x20) ∨ (0x2000 ≤ c.val ∧ c.val ≤ 0x200A)

-- `s.strip()`
def strip (s : Str) : Str :=
  s.dropWhile isSpace |>.rdropWhile isSpace

-- `s.split(sep, 1)`, for a separator which occurs in `s`
def cut (sep : Char) (s : Str) : Str × Str :=
  (s.takeWhile (· ≠ sep), (s.dropWhile (· ≠ sep)).tail)

end Str

-- The tag of an element, which is a function for a node that is no element of the document.
inductive Tag
  | name (s : Str)
  | comment
  | processingInstruction
  deriving DecidableEq

-- An element of `xml.etree.ElementTree`, with the identity of the object.
inductive Element
  | mk (id : ℕ) (tag : Tag) (attrib : List (Str × Str)) (text tail : Option Str) (children : List Element)

namespace Element

def id : Element → ℕ
  | mk id .. => id

def tag : Element → Tag
  | mk _ tag .. => tag

def tail : Element → Option Str
  | mk _ _ _ _ tail _ => tail

def children : Element → List Element
  | mk _ _ _ _ _ children => children

def get : Element → Str → Option Str
  | mk _ _ attrib .., key => attrib.lookup key

mutual

-- The elements of the tree in the order of the document.
def iter : Element → List Element
  | mk id tag attrib text tail children => mk id tag attrib text tail children :: iterAll children

def iterAll : List Element → List Element
  | []      => []
  | el :: l => iter el ++ iterAll l

end

mutual

def itertext : Element → List Str
  | mk _ (.name _) _ text _ children => text.toList ++ itertextAll children
  | _                                => []

def itertextAll : List Element → List Str
  | []      => []
  | el :: l => itertext el ++ el.tail.toList ++ itertextAll l

end

-- A dictionary from the identities of elements.
abbrev Parents := ℕ → Option Element

def addChildren (parents : Parents) (el : Element) : Parents :=
  el.children.foldl (fun d child => Function.update d child.id (some el)) parents

-- The parents of all elements but the root.
def parents (root : Element) : Parents :=
  root.iter.foldl addChildren fun _ => none

-- The way up to the root. The number of the elements of the document bounds its length.
def ancestors (parents : Parents) : ℕ → Element → List Element
  | 0, _         => []
  | fuel + 1, el =>
    match parents el.id with
    | some par => par :: ancestors parents fuel par
    | none     => []

theorem iterAll_eq (l : List Element) : iterAll l = l.flatMap iter := by
  induction l <;> simp_all [iterAll]

theorem iter_eq (el : Element) : el.iter = el :: el.children.flatMap iter := by
  cases el
  rw [iter, iterAll_eq, children]

theorem mem_iter_self (el : Element) : el ∈ el.iter := by
  rw [iter_eq]
  exact List.mem_cons_self

-- Induction over the children of elements.
@[elab_as_elim]
theorem ind {P : Element → Prop} (h : ∀ el, (∀ child ∈ el.children, P child) → P el) : ∀ el, P el
  | mk id tag attrib text tail children => h _ fun child _ => ind h child
termination_by el => sizeOf el
decreasing_by
  simp_wf
  have := List.sizeOf_lt_of_mem ‹_›
  simp only [Element.children] at this
  omega

variable {el child par a b : Element} {i : ℕ}

theorem mem_iter_trans (ha : a ∈ b.iter) (hb : b ∈ el.iter) : a ∈ el.iter := by
  induction el using ind
  case h el ih =>
    rw [iter_eq, List.mem_cons, List.mem_flatMap] at hb ⊢
    rcases hb with rfl | ⟨child, hc, hb⟩
    · rwa [iter_eq, List.mem_cons, List.mem_flatMap] at ha
    · exact .inr ⟨child, hc, ih child hc hb⟩

theorem mem_iter_of_mem_children (hc : child ∈ el.children) : child ∈ el.iter := by
  rw [iter_eq]
  exact List.mem_cons_of_mem _ <| List.mem_flatMap.mpr ⟨child, hc, mem_iter_self child⟩

theorem length_iter_lt (hc : child ∈ el.children) : child.iter.length < el.iter.length := by
  rw [iter_eq el, List.length_cons, Nat.lt_succ_iff]
  exact (List.sublist_flatten_of_mem <| List.mem_map_of_mem hc).length_le

theorem length_iter_le (h : a ∈ el.iter) : a.iter.length ≤ el.iter.length := by
  induction el using ind
  case h el ih =>
    rw [iter_eq, List.mem_cons, List.mem_flatMap] at h
    rcases h with rfl | ⟨child, hc, h⟩
    · exact le_rfl
    · exact (ih child hc h).trans (length_iter_lt hc).le

theorem foldl_update_eq_some {parents : Parents} {l : List Element}
    (h : l.foldl (fun (d : Parents) child => Function.update d child.id (some el)) parents i = some par) :
    parents i = some par ∨ (par = el ∧ ∃ child ∈ l, child.id = i) := by
  induction l generalizing parents
  case nil => exact .inl h
  case cons child l ih =>
    rcases ih h with h | ⟨rfl, c, hc, hi⟩
    · by_cases hi : i = child.id
      case pos =>
        subst hi
        simp only [Function.update_self] at h
        exact .inr ⟨(Option.some.inj h).symm, child, List.mem_cons_self, rfl⟩
      case neg =>
        simp only [Function.update_of_ne hi] at h
        exact .inl h
    · exact .inr ⟨rfl, c, List.mem_cons_of_mem _ hc, hi⟩

theorem parents_eq_some {root : Element} (h : root.parents i = some par) :
    par ∈ root.iter ∧ ∃ child ∈ par.children, child.id = i := by
  have hl {l : List Element} {parents : Parents} (h : l.foldl addChildren parents i = some par) :
      parents i = some par ∨ (par ∈ l ∧ ∃ child ∈ par.children, child.id = i) := by
    induction l generalizing parents
    case nil => exact .inl h
    case cons el l ih =>
      rcases ih h with h | ⟨hm, hc⟩
      · rcases foldl_update_eq_some h with h | ⟨rfl, hc⟩
        · exact .inl h
        · exact .inr ⟨List.mem_cons_self, hc⟩
      · exact .inr ⟨List.mem_cons_of_mem _ hm, hc⟩
  rcases hl h with h | h
  · cases h
  · exact h

end Element

-- A document, whose elements are different objects.
structure Document where
  root  : Element
  nodup : (root.iter.map Element.id).Nodup

namespace Document

open Element

variable {doc : Document}

theorem eq_of_id_eq (ha : a ∈ doc.root.iter) (hb : b ∈ doc.root.iter) (h : a.id = b.id) : a = b :=
  List.inj_on_of_nodup_map doc.nodup ha hb h

-- The element in the dictionary is the one which has the element as a child.
theorem mem_of_parents (h : el ∈ doc.root.iter) (hp : doc.root.parents el.id = some par) :
    par ∈ doc.root.iter ∧ el ∈ par.children := by
  obtain ⟨hm, child, hc, hi⟩ := parents_eq_some hp
  have he := eq_of_id_eq (mem_iter_trans (mem_iter_of_mem_children hc) hm) h hi
  exact ⟨hm, he ▸ hc⟩

theorem ancestors_succ (h : el ∈ doc.root.iter) (hf : doc.root.iter.length ≤ fuel + el.iter.length) :
    ancestors doc.root.parents (fuel + 1) el = ancestors doc.root.parents fuel el := by
  induction fuel generalizing el <;> cases hp : doc.root.parents el.id
  case zero.none      => simp [ancestors, hp]
  case succ.none      => simp [ancestors, hp]
  case zero.some par  =>
    have ⟨hm, hc⟩ := mem_of_parents h hp
    have := length_iter_lt hc
    have := length_iter_le hm
    omega
  case succ.some fuel ih par =>
    have ⟨hm, hc⟩ := mem_of_parents h hp
    have hl := length_iter_lt hc
    rw [ancestors, ancestors]
    simp only [hp, ih hm (by omega)]

-- The number of the elements is enough fuel for the way up.
theorem ancestors_eq (h : el ∈ doc.root.iter) (hf : doc.root.iter.length ≤ fuel) :
    ancestors doc.root.parents fuel el = ancestors doc.root.parents doc.root.iter.length el := by
  induction fuel, hf using Nat.le_induction
  case base => rfl
  case succ fuel hf ih => rw [ancestors_succ h (by omega), ih]

end Document
