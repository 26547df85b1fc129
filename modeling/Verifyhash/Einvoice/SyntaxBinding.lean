import Verifyhash.Einvoice.Tree

-- The evaluation of `einvoice/syntax_binding_eval.py`.
namespace SyntaxBinding

open Element

section Paths

inductive Step
  | elem (tags : List Str)
  | attr (key : Str)
  | parent

-- A leading `//` or `/` of a path.
inductive Origin
  | relative
  | descendant
  | rooted (tags : List Str)

-- The first step of a path from the root is kept with its origin.
structure Path where
  origin : Origin
  steps  : List Step

-- An element, or an attribute of an element.
inductive Node
  | elem (el : Element)
  | attr (el : Element) (key : Str)

def childrenIn (tags : List Str) (current : List Element) : List Element :=
  current.flatMap fun el => el.children.filter fun child => tags.any fun tag => child.tag = .name tag

variable (parents : Parents)

-- The parents of some elements, each of them once.
def parentsOf (current : List Element) : List Element :=
  current.foldl addParent []
where
  addParent (next : List Element) (el : Element) : List Element :=
    match parents el.id with
    | some par => if next.any fun el => el.id = par.id then next else next ++ [par]
    | none     => next

def walk : List Step → List Element → List Node
  | [], current             => current.map .elem
  | .attr key :: _, current => (current.filter fun el => (el.get key).isSome).map (.attr · key)
  | .parent :: steps, current =>
    let next := parentsOf parents current
    if next.isEmpty then [] else walk steps next
  | .elem tags :: steps, current =>
    let next := childrenIn tags current
    if next.isEmpty then [] else walk steps next

-- `_select`
def select (path : Path) (ctx root : Element) : List Node :=
  match path.origin with
  | .relative    => walk parents path.steps [ctx]
  | .descendant  => walk parents path.steps root.iter
  | .rooted tags => walk parents path.steps <| [root].filter fun el => tags.any fun tag => el.tag = .name tag

end Paths

section Tests

def stringValue : Node → Str
  | .elem el     => el.itertext.flatten
  | .attr el key => (el.get key).getD []

-- `_nodeset_ne`
def nodesetNe (as bs : List Node) : Bool :=
  let aVals := (as.map stringValue).toFinset
  let bVals := (bs.map stringValue).toFinset
  ¬ as.isEmpty ∧ ¬ bs.isEmpty ∧ ¬ (aVals.card = 1 ∧ aVals = bVals)

inductive Op
  | le
  | eq
  | lt
  | ge
  | gt

-- `_cmp`
def cmp (count : ℤ) (op : Op) (n : ℕ) : Bool :=
  match op with
  | .le => count ≤ n
  | .eq => count = n
  | .lt => count < n
  | .ge => count ≥ n
  | .gt => count > n

inductive Compiled
  | not (p : Path)
  | notOrEq (p q : Path) (literal : Str)
  | notOrExists (p q : Path)
  | notAnd (a b : Path)
  | count (p : Path) (op : Op) (n : ℕ)
  | notOrCount (p q : Path) (op : Op) (n : ℕ)
  | countDiff (p q : Path) (op : Op) (n : ℕ)
  | andCountNe (p : Path) (op : Op) (n : ℕ) (a b : Path)
  | decimalLe (n : ℕ)
  | existsAll (terms : List Path)

-- The part of a string after its first full stop.
def afterPoint (s : Str) : Str :=
  (s.dropWhile (· ≠ '.')).tail

-- Whether a test fires, and the node at which it fires unless this is the context.
def Compiled.evaluate (compiled : Compiled) (ctx root : Element) (parents : Parents) : Bool × Option Node :=
  let select (path : Path) := select parents path ctx root
  match compiled with
  | not p =>
    match select p with
    | []     => (false, none)
    | n :: _ => (true, n)
  | notOrEq p q literal =>
    match select p with
    | []     => (false, none)
    | n :: _ => if (select q).any fun n => stringValue n = literal then (false, none) else (true, n)
  | notOrExists p q =>
    match select p with
    | []     => (false, none)
    | n :: _ => if (select q).isEmpty then (true, n) else (false, none)
  | notAnd a b =>
    match select a, select b with
    | n :: _, _ :: _ => (true, n)
    | _, _           => (false, none)
  | count p op n =>
    let nodes := select p
    if cmp nodes.length op n then (false, none) else (true, nodes.head?)
  | notOrCount p q op n =>
    match select p with
    | []     => (false, none)
    | n₁ :: _ =>
      let nodes := select q
      if cmp nodes.length op n then (false, none) else (true, nodes.headD n₁)
  | countDiff p q op n =>
    if cmp ((select p).length - (select q).length) op n then (false, none) else (true, none)
  | andCountNe p op n a b =>
    let nodes := select p
    let countOk := cmp nodes.length op n
    if countOk ∧ nodesetNe (select a) (select b) then (false, none)
    else (true, if countOk then none else nodes.head?)
  | decimalLe n =>
    if (afterPoint <| stringValue <| .elem ctx).length ≤ n then (false, none) else (true, some <| .elem ctx)
  | existsAll terms => (terms.any fun term => (select term).isEmpty, none)

end Tests

section Contexts

-- A chain of tags, from the outermost to that of the element itself.
structure CtxBranch where
  rooted : Bool
  tags   : List Str
  ne_nil : tags ≠ []

structure SuffixBranch where
  nsUri            : Option Str
  suffix           : Str
  excludeTags      : List Str
  excludeSuffixes  : List Str
  excludeAncestors : List (Str × List Str)

inductive Branch
  | path (br : CtxBranch)
  | suffix (br : SuffixBranch)

structure Context where
  branches : List Branch

-- The namespace and the local name of a tag.
def clark (tag : Str) : Str × Str :=
  if '}' ∈ tag then Str.cut '}' tag.tail else ([], tag)

-- `_child_chain_present`
def childChainPresent : List Element → List Str → Bool
  | current, []          => ¬ current.isEmpty
  | current, tag :: tags =>
    let next := childrenIn [tag] current
    ¬ next.isEmpty ∧ childChainPresent next tags

variable (parents : Parents) (size : ℕ)

-- `_ancestor_path_present`
def ancestorPathPresent (el : Element) (ancTag : Str) (childChain : List Str) : Bool :=
  (ancestors parents size el).any fun cur => cur.tag = .name ancTag ∧ childChainPresent [cur] childChain

def SuffixBranch.matches (br : SuffixBranch) (el : Element) : Bool :=
  match el.tag with
  | .name tag =>
    let (uri, name) := clark tag
    (∀ nsUri ∈ br.nsUri, uri = nsUri) ∧ br.suffix <:+ name ∧ tag ∉ br.excludeTags ∧
      (∀ s ∈ br.excludeSuffixes, ¬ s <:+ name) ∧
      ∀ a ∈ br.excludeAncestors, ¬ ancestorPathPresent parents size el a.fst a.snd
  | _ => false

-- The element which has the outermost tag of a chain, if the tags on the way up are those of the
-- chain. The innermost tag comes first.
def outermost : List Str → Element → Option Element
  | [], el          => some el
  | [tag], el       => if el.tag = .name tag then some el else none
  | tag :: tags, el => if el.tag = .name tag then (parents el.id).bind (outermost tags) else none

-- `_branch_matches`
def branchMatches (br : Branch) (el : Element) : Bool :=
  match br with
  | .suffix br => br.matches parents size el
  | .path br   =>
    match outermost parents br.tags.reverse el with
    | some cur => br.rooted → (parents cur.id).isNone
    | none     => false

-- `_Context.match`
def Context.match (ctx : Context) (root : Element) : List Element :=
  root.iter.filter fun el => ctx.branches.any fun br => branchMatches parents size br el

end Contexts

section Index

-- What the walk over a document collects.
structure Index where
  parents   : Parents
  byTag     : Tag → Option (List Element)
  elems     : List Element
  positions : ℕ → Option ℕ

def Index.empty : Index where
  parents _   := none
  byTag _     := none
  elems       := []
  positions _ := none

def Index.add (ix : Index) (i : ℕ) (el : Element) : Index where
  parents   := addChildren ix.parents el
  byTag     := Function.update ix.byTag el.tag <| some <| (ix.byTag el.tag).getD [] ++ [el]
  elems     := ix.elems ++ [el]
  positions := Function.update ix.positions el.id (some i)

def index (root : Element) : Index :=
  root.iter.zipIdx.foldl (fun ix p => ix.add p.snd p.fst) .empty

-- The elements which are found, and their identities.
structure Found where
  out  : List Element
  seen : Finset ℕ

def Index.candidates (ix : Index) : Branch → List Element
  | .suffix _ => ix.elems
  | .path br  => (ix.byTag <| .name <| br.tags.getLast br.ne_nil).getD []

-- One turn of the loop over the candidates.
def Found.visit (matching : Element → Bool) (f : Found) (el : Element) : Found :=
  if el.id ∈ f.seen then f
  else if matching el then { out := f.out ++ [el], seen := insert el.id f.seen }
  else f

def Index.position (ix : Index) (el : Element) : ℕ :=
  (ix.positions el.id).getD 0

-- One turn of the loop over the branches.
def Index.search (ix : Index) (f : Found) (br : Branch) : Found :=
  (ix.candidates br).foldl (Found.visit <| branchMatches ix.parents ix.elems.length br) f

-- `_match_context_indexed`
def matchContextIndexed (ctx : Context) (ix : Index) : List Element :=
  let found := ctx.branches.foldl ix.search { out := [], seen := ∅ }
  if ctx.branches.length > 1 then
    found.out.insertionSort fun a b => ix.position a ≤ ix.position b
  else
    found.out

end Index

section Findings

inductive Binding
  | ubl
  | cii

-- An entry refers to the context which was compiled for it.
structure Entry where
  id       : Str
  flag     : Str
  test     : Str
  compiled : Compiled
  ctx      : ℕ
  binding  : Binding

structure Finding where
  id       : Str
  category : Str
  severity : Str
  flag     : Str
  message  : Str
  element  : Str

def CATEGORY : Str := str "syntax-binding"

-- `_severity_from_flag`
def severityFromFlag (flag : Str) : Str :=
  if (Str.strip flag).map Char.toLower = str "fatal" then str "fatal" else str "warning"

-- `tag.rsplit("}", 1)[-1]`
def localName (tag : Str) : Str :=
  tag.rtakeWhile (· ≠ '}')

-- `_localname`, which fails on the tags that are no names
def localname : Tag → Str
  | .name tag => localName tag
  | _         => []

variable (parents : Parents) (size : ℕ)

-- `_node_path`
def nodePath : Node → Str
  | .elem el     => elementPath el
  | .attr el key => elementPath el ++ str "/@" ++ localName key
where
  elementPath (el : Element) : Str :=
    (el :: ancestors parents size el).reverse.flatMap fun cur => '/' :: localname cur.tag

def forbidden (syn : Str) : Compiled → Option Str
  | .not _     => some <| str "forbidden " ++ syn ++ str " element/attribute is present"
  | .notOrEq .. => some <| str "restricted " ++ syn ++ str " element is present with a non-conforming value"
  | _          => none

def detail (syn : Str) : Compiled → Str
  | .notOrExists .. =>
    str "a restricted " ++ syn ++ str " element is present without the companion " ++
      str "element/attribute the EN 16931 syntax binding requires alongside it"
  | .notAnd .. =>
    str "two mutually-exclusive " ++ syn ++ str " elements are both present — the " ++
      str "EN 16931 syntax binding allows at most one of them"
  | .count .. | .notOrCount .. =>
    syn ++ str " element repetition exceeds the EN 16931 syntax-binding cardinality cap"
  | .existsAll .. =>
    str "a " ++ syn ++ str " element/attribute the EN 16931 syntax binding requires is absent"
  | _ => str "syntax-binding restriction violated"

-- `_message`
def message (entry : Entry) (path : Str) : Str :=
  let syn := match entry.binding with
    | .cii => str "CII"
    | .ubl => str "UBL"
  let head := str "Syntax-binding restriction " ++ entry.id ++ str " (CEN EN 16931 " ++ syn ++ str ", flag=" ++
    entry.flag ++ str "): "
  let test := str "(@test=" ++ entry.test ++ str ")."
  match forbidden syn entry.compiled with
  | some kind =>
    head ++ kind ++ str " at " ++ path ++ str " — the EN 16931 core model has no conformant slot for it " ++ test
  | none => head ++ detail syn entry.compiled ++ str " at " ++ path ++ str " " ++ test

-- The finding of an entry at one context.
def finding? (root : Element) (entry : Entry) (ctx : Element) : Option Finding :=
  let (fires, node) := entry.compiled.evaluate ctx root parents
  if fires then
    let path := nodePath parents size <| node.getD <| .elem ctx
    some {
      id       := entry.id
      category := CATEGORY
      severity := severityFromFlag entry.flag
      flag     := entry.flag
      message  := message entry path
      element  := path
    }
  else
    none

end Findings

section Evaluation

-- The contexts to which the entries refer.
variable (ctxs : ℕ → Context)

-- The nodes of the contexts which were matched, and the findings.
structure Progress where
  memo     : ℕ → Option (List Element)
  findings : List Finding

-- One turn of the loop over the entries.
def evaluateEntry (ix : Index) (root : Element) (s : Progress) (entry : Entry) : Progress :=
  let nodes := (s.memo entry.ctx).getD <| matchContextIndexed (ctxs entry.ctx) ix
  {
    memo     := Function.update s.memo entry.ctx (some nodes)
    findings := s.findings ++ nodes.filterMap (finding? ix.parents ix.elems.length root entry)
  }

-- `_evaluate_entries`
def evaluateEntries (root : Element) (implemented : List Entry) : List Finding :=
  if implemented.isEmpty then []
  else
    let s := implemented.foldl (evaluateEntry ctxs (index root) root) { memo := fun _ => none, findings := [] }
    s.findings

-- The evaluation of each entry on the nodes which its context matches in the tree.
def evaluateOnMatches (root : Element) (implemented : List Entry) : List Finding :=
  implemented.flatMap fun entry =>
    ((ctxs entry.ctx).match root.parents root.iter.length root).filterMap
      (finding? root.parents root.iter.length root entry)

end Evaluation

end SyntaxBinding
