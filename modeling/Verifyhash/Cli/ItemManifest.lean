import Verifyhash.Cli.Manifest

-- The manifests of `cli/core/manifest.js` with the hints of their files, and their validator for any value.
namespace ItemManifest

open Hex Value Json Checks
open Cli (ManifestCfg Inherited inherited pathLeaf)

-- `Object.entries(v)`, for an object.
def entries (fields : List (JsString × Value)) : List (JsString × Value) :=
  Fields.arrange ownOrder <| fields.map fun f => (f.fst, some f.snd)

-- The source and the license of a file, of which at least one is given.
structure Hint where
  source  : Option JsString
  license : Option JsString
  deriving DecidableEq

-- The object `out` of `normalizeHints`: its own properties, and its prototype if an assignment to `__proto__`
-- replaced that.
structure HintMap where
  own       : List (JsString × Hint)
  prototype : Option Hint

def HintMap.empty : HintMap where
  own       := []
  prototype := none

-- `out[rel] = entry`, for a path which has no property yet.
def HintMap.assign (hints : HintMap) (rel : JsString) (entry : Hint) : HintMap :=
  if rel = js "__proto__" then { hints with prototype := some entry }
  else { hints with own := hints.own ++ [(rel, entry)] }

-- `h[k]` of a hint, as a string if it is given.
def hintField (rel : JsString) (h : Value) (k : String) : Except JsString (Option JsString) :=
  if (h.get k).isNullish then
    return none
  else do
    let s ← demand (h.get k).toString? <|
      js "hint " ++ js k ++ js " for " ++ shown (string rel) ++ js " must be a string"
    return some s

-- One turn of the loop over the hints.
def addHint (knownPaths : List JsString) (out : HintMap) (raw : JsString × Value) : Except JsString HintMap := do
  let (rel, h) := raw
  require (rel ∈ knownPaths) <| js "hint for unknown path (not in the dataset): " ++ shown (string rel)
  require h.isObject <| js "hint for " ++ shown (string rel) ++ js " must be an object with source/license"
  let source ← hintField rel h "source"
  let license ← hintField rel h "license"
  return if source.isSome ∨ license.isSome then out.assign rel ⟨source, license⟩ else out

def normalizeHints (rawHints : Value) (knownPaths : List JsString) : Except JsString HintMap :=
  match rawHints with
  | .undefined | .null => return .empty
  | .object fields     => (entries fields).foldlM (addHint knownPaths) .empty
  | _                  => .error <| js "hints must be an object keyed by relPath"

-- What a field `hints` holds.
inductive HintsField
  | value (v : Value)
  | function

def Hint.toValue (h : Hint) : Value :=
  .object <| (h.source.toList.map fun s => (js "source", .string s)) ++
    h.license.toList.map fun s => (js "license", .string s)

-- The property of a hint which is the prototype, if it has a property with that name.
def Hint.property (h : Hint) (name : JsString) : Option JsString :=
  if name = js "source" then h.source
  else if name = js "license" then h.license
  else none

-- `hints[path]`. A path without a property of its own is looked up in the prototype, and in that of objects.
def HintMap.read (hints : HintMap) (path : JsString) : HintsField :=
  match hints.own.lookup path, hints.prototype.bind (·.property path), inherited path with
  | some h, _, _             => .value h.toValue
  | none, some s, _          => .value <| .string s
  | none, none, .function    => .function
  | none, none, .undefined   => .value .undefined
  | none, none, .object      => .value <| (hints.prototype.map Hint.toValue).getD <| .object []

-- What `hashDirStream` returns.
structure Leaf where
  path        : JsString
  contentHash : JsString
  leaf        : JsString

structure Built where
  root   : JsString
  leaves : List Leaf

structure File where
  relPath     : JsString
  contentHash : JsString
  leaf        : JsString
  hints       : Option HintsField

structure Manifest where
  kind          : JsString
  schemaVersion : ℕ
  note          : JsString
  root          : JsString
  fileCount     : ℕ
  files         : List File

-- `if (h) entry.hints = h;`
def attached : HintsField → Option HintsField
  | .value v  => if v.isFalsy then none else some <| .value v
  | .function => some .function

-- What the validator reads from an entry of a manifest.
structure Item where
  relPath     : Value
  contentHash : Value
  leaf        : Value
  hints       : HintsField

-- What the validator reads from a manifest. Entries which are not objects are `none`.
structure View where
  kind          : Value
  schemaVersion : Value
  root          : Value
  fileCount     : Value
  files         : Option (List (Option Item))

def Item.ofValue (v : Value) : Option Item :=
  if v.isObject then some ⟨v.get "relPath", v.get "contentHash", v.get "leaf", .value <| v.get "hints"⟩
  else none

def View.ofValue (v : Value) : View where
  kind          := v.get "kind"
  schemaVersion := v.get "schemaVersion"
  root          := v.get "root"
  fileCount     := v.get "fileCount"
  files         := match v.get "files" with
    | .array elems => some <| elems.map Item.ofValue
    | _            => none

def File.toItem (f : File) : Item where
  relPath     := .string f.relPath
  contentHash := .string f.contentHash
  leaf        := .string f.leaf
  hints       := f.hints.getD <| .value .undefined

def Manifest.toView (m : Manifest) : View where
  kind          := .string m.kind
  schemaVersion := .nat m.schemaVersion
  root          := .string m.root
  fileCount     := .nat m.fileCount
  files         := some <| m.files.map fun f => some f.toItem

-- The path under which an entry is seen.
def itemPath (entry : Option Item) : JsString :=
  (entry.bind fun item => item.relPath.toString?).getD []

-- The check of `entry.hints`, where `file` names the entry.
def checkHints (file : JsString) : HintsField → Except JsString Unit
  | .function => .error <| file ++ js ".hints must be an object when present"
  | .value v  =>
    if v.isNullish then
      return ()
    else do
      require v.isObject <| file ++ js ".hints must be an object when present"
      require ((v.get "source").isUndefined ∨ (v.get "source").toString?.isSome) <|
        file ++ js ".hints.source must be a string when present"
      require ((v.get "license").isUndefined ∨ (v.get "license").toString?.isSome) <|
        file ++ js ".hints.license must be a string when present"

-- `_requireCfg`
def requireCfg (cfg : ManifestCfg) : Except JsString Unit := do
  require (cfg.kind ≠ []) <| js "manifest core config requires a non-empty string `kind`"
  require (cfg.supportedSchemaVersions ≠ []) <|
    js "manifest core config requires a non-empty `supportedSchemaVersions` array"

section

variable (keccak256 : Bytes → Bytes32) (toUtf8Bytes : JsString → Except JsString Bytes) (sep : UInt16)

-- One turn of the loop over the files, after the paths which are seen. Their number is the index.
def checkItem (label : JsString) (seen : List JsString) (entry : Option Item) : Except JsString Unit := do
  let file := label ++ js " files[" ++ natText seen.length ++ js "]"
  let notHex (field : String) (v : Value) : Option JsString := v.toText.map fun text =>
    file ++ js "." ++ js field ++ js " must be a 0x-prefixed 32-byte hex string, got: " ++ text
  let entry ← demand entry <| file ++ js " must be an object"
  let relPath ← demand (entry.relPath.toString?.filter (· ≠ [])) <| entry.relPath.toText.map fun text =>
    file ++ js ".relPath must be a non-empty string, got: " ++ text
  require (relPath ∉ seen) <| label ++ js " has a duplicate relPath: " ++ shown (string relPath)
  let contentHash ← demand entry.contentHash.hex32? <| notHex "contentHash" entry.contentHash
  let leaf ← demand entry.leaf.hex32? <| notHex "leaf" entry.leaf
  let expectedLeaf ← pathLeaf keccak256 toUtf8Bytes sep relPath contentHash
  require (toLowerCase leaf = toLowerCase expectedLeaf) <|
    file ++ js ".leaf is inconsistent with its relPath+contentHash (expected " ++ expectedLeaf ++
      js ", got " ++ leaf ++ js ")"
  checkHints file entry.hints

-- The checks of `validateItemManifest`, for an object.
def checkView (obj : View) (cfg : ManifestCfg) : Except JsString Unit := do
  let label := if cfg.label = [] then js "dataset manifest" else cfg.label
  require (obj.kind.toString? = some cfg.kind) <|
    js "not a verifyhash " ++ label ++ js " (kind: " ++ shown obj.kind ++ js "; expected " ++
      shown (string cfg.kind) ++ js ")"
  require (cfg.supportedSchemaVersions.any fun n => obj.schemaVersion.toInt? = some (n : ℤ)) <|
    js "unsupported " ++ label ++ js " schemaVersion: " ++ shown obj.schemaVersion ++
      js " (this build understands " ++ shown (array <| cfg.supportedSchemaVersions.map nat) ++ js ")"
  require obj.root.hex32?.isSome <| obj.root.toText.map fun text =>
    label ++ js " root must be a 0x-prefixed 32-byte hex string, got: " ++ text
  let files ← demand obj.files <| label ++ js " field files must be an array"
  require (files ≠ []) <| label ++ js " files must be non-empty (a manifest over zero files is invalid)"
  require (obj.fileCount.isUndefined ∨ obj.fileCount.toInt? = some (files.length : ℤ)) <|
    obj.fileCount.toText.map fun text =>
      label ++ js " fileCount (" ++ text ++ js ") does not match files length (" ++ natText files.length ++ js ")"
  Keyed.each (checkItem keccak256 toUtf8Bytes sep label) itemPath [] files

def validateItemManifest (obj : Value) (cfg : ManifestCfg) : Except JsString Value := do
  requireCfg cfg
  let label := if cfg.label = [] then js "dataset manifest" else cfg.label
  require obj.isObject <| label ++ js " must be a JSON object"
  checkView keccak256 toUtf8Bytes sep (.ofValue obj) cfg
  return obj

def itemManifest (built : Built) (cfg : ManifestCfg) (hints : HintMap) : Manifest where
  kind          := cfg.kind
  schemaVersion := cfg.schemaVersion
  note          := cfg.note
  root          := built.root
  fileCount     := built.leaves.length
  files         := built.leaves.map fun l =>
    { relPath := l.path, contentHash := l.contentHash, leaf := l.leaf, hints := attached <| hints.read l.path }

def buildItemManifest (built : Built) (cfg : ManifestCfg) (rawHints : Value) : Except JsString Manifest := do
  requireCfg cfg
  let knownPaths := built.leaves.map Leaf.path
  let hints ← normalizeHints rawHints knownPaths
  let manifest := itemManifest built cfg hints
  checkView keccak256 toUtf8Bytes sep manifest.toView cfg
  return manifest

end

-- The object of a file, as it is written. A function is not written.
def File.toValue (f : File) : Value :=
  .object <| [
    (js "relPath", .string f.relPath),
    (js "contentHash", .string f.contentHash),
    (js "leaf", .string f.leaf)
  ] ++ match f.hints with
    | some (.value v) => [(js "hints", v)]
    | _               => []

def Manifest.toValue (m : Manifest) : Value :=
  .object [
    (js "kind", .string m.kind),
    (js "schemaVersion", .nat m.schemaVersion),
    (js "note", .string m.note),
    (js "root", .string m.root),
    (js "fileCount", .nat m.fileCount),
    (js "files", .array <| m.files.map File.toValue)
  ]

end ItemManifest
