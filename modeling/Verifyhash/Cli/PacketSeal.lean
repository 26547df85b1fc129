import Verifyhash.Cli.Manifest

-- The seals of `cli/core/packetseal.js`.
namespace Cli

open Hex Value Json Checks

-- The header which a product binds into the roots of its seals.
structure Header where
  headerRelPath    : JsString
  headerContentFor : Value → Except JsString Bytes

-- The framing of a product, as `_requireCfg` accepts it. The label has its default.
structure SealCfg where
  kind                    : JsString
  schemaVersion           : ℕ
  supportedSchemaVersions : List ℕ
  note                    : JsString
  label                   : JsString
  header                  : Option Header

-- What is read from a seal which is valid: pairs of a relative path and the hash of the content.
structure Seal where
  root  : JsString
  files : List (JsString × JsString)
  deriving DecidableEq

-- The elements of an array which is not empty.
def someElems? : Value → Option (List Value)
  | array (v :: vs) => some (v :: vs)
  | _               => none

variable (keccak256 : Bytes → Bytes32) (toUtf8Bytes : JsString → Except JsString Bytes) (sep : UInt16)

-- Pairs of a relative path and the hash of the content.
def rootFromLeafEntries (flat : List (JsString × JsString)) : Except JsString (Option JsString) := do
  let leaves ← flat.mapM fun (relPath, contentHash) =>
    pathLeaf keccak256 toUtf8Bytes sep relPath contentHash
  let tree ← buildTree keccak256 leaves
  return tree.root

-- One turn of the loop over the files, after the paths which are seen.
def checkEntry (cfg : SealCfg) (i : ℕ) (seen : List JsString) (entry : Value) :
    Except JsString (JsString × JsString) := do
  let file := cfg.label ++ js " files[" ++ natText i ++ js "]"
  let notHex (field : String) : Option JsString := (entry.get field).toText.map fun text =>
    file ++ js "." ++ js field ++ js " must be a 0x-prefixed 32-byte hex string, got: " ++ text
  require entry.isObject <| file ++ js " must be an object"
  let relPath ← demand ((entry.get "relPath").toString?.filter (· ≠ [])) <|
    file ++ js ".relPath must be a non-empty string"
  require (∀ header ∈ cfg.header, relPath ≠ header.headerRelPath) <|
    file ++ js ".relPath " ++ shown (string relPath) ++ js " is reserved for the seal header"
  require (relPath ∉ seen) <|
    cfg.label ++ js " has a duplicate relPath across the file set: " ++ shown (string relPath)
  let contentHash ← demand (entry.get "contentHash").hex32? <| notHex "contentHash"
  let leaf ← demand (entry.get "leaf").hex32? <| notHex "leaf"
  let expectedLeaf ← pathLeaf keccak256 toUtf8Bytes sep relPath contentHash
  require (toLowerCase leaf = toLowerCase expectedLeaf) <|
    file ++ js ".leaf is inconsistent with its relPath+contentHash (expected " ++ expectedLeaf ++
      js ", got " ++ leaf ++ js ")"
  return (relPath, contentHash)

def checkEntries (cfg : SealCfg) : ℕ → List JsString → List Value → Except JsString (List (JsString × JsString))
  | _, _, []                   => return []
  | i, seen, entry :: entries => do
    let file ← checkEntry keccak256 toUtf8Bytes sep cfg i seen entry
    let flat ← checkEntries cfg (i + 1) (file.fst :: seen) entries
    return file :: flat

-- `_checkCommonSeal`
def checkCommonSeal (obj : Value) (cfg : SealCfg) : Except JsString Seal := do
  require obj.isObject <| cfg.label ++ js " must be a JSON object"
  require ((obj.get "kind").toString? = some cfg.kind) <|
    js "not a " ++ cfg.label ++ js " (kind: " ++ shown (obj.get "kind") ++ js "; expected " ++
      shown (string cfg.kind) ++ js ")"
  require (cfg.supportedSchemaVersions.any fun n => (obj.get "schemaVersion").toInt? = some (n : ℤ)) <|
    js "unsupported " ++ cfg.label ++ js " schemaVersion: " ++ shown (obj.get "schemaVersion") ++
      js " (this build understands " ++ shown (array <| cfg.supportedSchemaVersions.map nat) ++ js ")"
  require ((obj.get "note").toString? = some cfg.note) <|
    cfg.label ++ js " `note` must be the standing trust note (caveat must not drift)"
  let root ← demand (obj.get "root").hex32? <| (obj.get "root").toText.map fun text =>
    cfg.label ++ js " root must be a 0x-prefixed 32-byte hex string, got: " ++ text
  let entries ← demand (someElems? <| obj.get "files") <| cfg.label ++ js " `files` must be a non-empty array"
  let files ← checkEntries keccak256 toUtf8Bytes sep cfg 0 [] entries
  let fileCount := obj.get "fileCount"
  require (fileCount.isUndefined ∨ fileCount.toInt? = some (entries.length : ℤ)) <| fileCount.toText.map fun text =>
    cfg.label ++ js " fileCount (" ++ text ++ js ") does not match the files length (" ++
      natText entries.length ++ js ")"
  return { root, files }

-- The header of a seal as one more file.
def committedFlat (obj : Value) (cfg : SealCfg) (flat : List (JsString × JsString)) :
    Except JsString (List (JsString × JsString)) :=
  match cfg.header with
  | some header => do
    let content ← header.headerContentFor obj
    require ((obj.get "header").isObject ∧
      ((obj.get "header").get "relPath").toString? = some header.headerRelPath) <|
      cfg.label ++ js " must carry a header marker \x7b relPath: " ++ shown (string header.headerRelPath) ++
        js " \x7d"
    return flat ++ [(header.headerRelPath, hashBytes keccak256 content)]
  | none => do
    require (obj.get "header").isUndefined <|
      cfg.label ++ js " carries a header but its config declares none"
    return flat

def validateSeal (obj : Value) (cfg : SealCfg) : Except JsString Seal := do
  let common ← checkCommonSeal keccak256 toUtf8Bytes sep obj cfg
  let flat ← committedFlat keccak256 obj cfg common.files
  let rederived ← rootFromLeafEntries keccak256 toUtf8Bytes sep flat
  let headerNote (note : String) := if cfg.header.isSome then js note else []
  require (rederived.map toLowerCase = some (toLowerCase common.root)) <|
    cfg.label ++ js " root does not re-derive from its listed entries" ++ headerNote " + header" ++
      js " (expected " ++ rederived.getD (js "undefined") ++ js ", got " ++ common.root ++
      js ") — the seal is internally inconsistent (a file" ++ headerNote " or a bound header field" ++
      js " was edited without updating the root)"
  return common

-- A file which the caller has read.
structure FileEntry where
  relPath : JsString
  bytes   : Bytes

structure HeaderArg where
  relPath : JsString
  content : Bytes

-- One turn of the loop over the entries, after the paths which are seen.
def normalizeEntry (cfg : SealCfg) (seen : List JsString) (e : FileEntry) : Except JsString Unit := do
  require (e.relPath ≠ []) <| cfg.label ++ js " entry relPath must be a non-empty string"
  require (∀ header ∈ cfg.header, e.relPath ≠ header.headerRelPath) <|
    cfg.label ++ js " entry relPath " ++ shown (string e.relPath) ++
      js " is reserved for the seal header (a real file may not occupy the bound header slot)"
  require (e.relPath ∉ seen) <|
    cfg.label ++ js " has a duplicate relPath across the file set: " ++ shown (string e.relPath) ++
      js " (every entry must occupy a distinct path)"

-- `_normalizeEntries`
def normalizeEntries (files : List FileEntry) (cfg : SealCfg) (strictNonEmpty : Bool) :
    Except JsString (List FileEntry) := do
  require (strictNonEmpty → files ≠ []) <|
    cfg.label ++ js " `entries` must be a non-empty array of \x7b relPath, bytes \x7d"
  Keyed.each (normalizeEntry cfg) FileEntry.relPath [] files
  return files

-- `_validateHeaderArg`
def validateHeaderArg (header : Option HeaderArg) (cfg : SealCfg) : Except JsString (Option Bytes) :=
  match header, cfg.header with
  | none, none   => return none
  | none, some _ => .error <|
    cfg.label ++ js " config declares a header (headerRelPath) but buildSeal got no `header` " ++
      js "\x7b relPath, content \x7d"
  | some _, none => .error <|
    cfg.label ++ js " got a `header` but its config declares none " ++
      js "(set headerRelPath/headerContentFor to use one)"
  | some header, some declared => do
    require (header.relPath = declared.headerRelPath) <|
      cfg.label ++ js " header relPath must be the reserved " ++ shown (string declared.headerRelPath) ++
        js ", got: " ++ shown (string header.relPath)
    return some header.content

-- `_manifestCfg`
def manifestCfg (cfg : SealCfg) : ManifestCfg where
  kind                    := cfg.kind ++ js "-manifest"
  schemaVersion           := 1
  supportedSchemaVersions := [1]
  note                    := TRUST_NOTE
  label                   := cfg.label ++ js " manifest"

-- `_committedEntries`
def committedEntries (fileEntries : List FileEntry) (headerContent : Option Bytes) (cfg : SealCfg) :
    List FileEntry :=
  match cfg.header, headerContent with
  | some header, some content => fileEntries ++ [⟨header.headerRelPath, content⟩]
  | _, _                      => fileEntries

def FileEntry.toEntry (e : FileEntry) : Entry where
  path    := e.relPath
  content := e.bytes
  abs     := none

-- `_manifestOver`. The paths of a manifest are distinct, so that a search finds what the map `byRelPath`
-- holds.
def manifestOver (entries : List FileEntry) (cfg : SealCfg) : Except JsString Manifest := do
  let built ← hashEntries keccak256 toUtf8Bytes sep <| entries.map (·.toEntry)
  buildItemManifest keccak256 toUtf8Bytes sep built (manifestCfg cfg)

-- The elements in the order of their paths, which is that of the code units.
def sortByRel (relPath : α → JsString) (l : List α) : List α :=
  l.insertionSort fun a b => relPath a ≤ relPath b

structure SealedFile where
  relPath     : JsString
  contentHash : JsString
  leaf        : JsString
  deriving DecidableEq

structure BuiltSeal where
  kind          : JsString
  schemaVersion : ℕ
  note          : JsString
  root          : Option JsString
  fileCount     : ℕ
  files         : List SealedFile
  header        : Option JsString
  deriving DecidableEq

def SealedFile.toValue (f : SealedFile) : Value :=
  .object [
    (js "relPath", .string f.relPath),
    (js "contentHash", .string f.contentHash),
    (js "leaf", .string f.leaf)
  ]

-- The object which is returned. The header has its place after the files.
def BuiltSeal.toValue (s : BuiltSeal) : Value :=
  .object <| [
    (js "kind", .string s.kind),
    (js "schemaVersion", .nat s.schemaVersion),
    (js "note", .string s.note),
    (js "root", (s.root.map .string).getD .undefined),
    (js "fileCount", .nat s.fileCount),
    (js "files", .array <| s.files.map SealedFile.toValue)
  ] ++ s.header.toList.map fun relPath => (js "header", .object [(js "relPath", .string relPath)])

-- A file as the manifest lists it.
def sealedFile (manifest : Manifest) (e : FileEntry) : Except JsString SealedFile := do
  let leaf ← demand (manifest.files.find? (·.relPath = e.relPath)) <|
    js "Cannot read properties of undefined (reading 'relPath')"
  return { relPath := leaf.relPath, contentHash := leaf.contentHash, leaf := leaf.leaf }

def buildSeal (files : List FileEntry) (header : Option HeaderArg) (cfg : SealCfg) :
    Except JsString BuiltSeal := do
  let entries ← normalizeEntries files cfg true
  let headerContent ← validateHeaderArg header cfg
  let manifest ← manifestOver keccak256 toUtf8Bytes sep (committedEntries entries headerContent cfg) cfg
  let files ← entries.mapM <| sealedFile manifest
  return {
    kind          := cfg.kind
    schemaVersion := cfg.schemaVersion
    note          := cfg.note
    root          := manifest.root
    fileCount     := entries.length
    files         := sortByRel SealedFile.relPath files
    header        := cfg.header.map Header.headerRelPath
  }

structure Matched where
  relPath     : JsString
  contentHash : JsString
  deriving DecidableEq

structure Changed where
  relPath             : JsString
  expectedContentHash : JsString
  actualContentHash   : JsString
  deriving DecidableEq

structure Counts where
  matched    : ℕ
  changed    : ℕ
  missing    : ℕ
  unexpected : ℕ
  deriving DecidableEq

structure Verdict where
  verdict        : JsString
  accepted       : Bool
  sealedRoot     : JsString
  recomputedRoot : Option JsString
  rootMatches    : Bool
  counts         : Counts
  matched        : List Matched
  changed        : List Changed
  missing        : List JsString
  unexpected     : List Matched
  deriving DecidableEq

-- Of the sealed files, whose paths are distinct.
def matchedFiles (sealedByRel suppliedByRel : List (JsString × JsString)) : List Matched :=
  sealedByRel.filterMap fun (relPath, expHash) => do
    let got ← suppliedByRel.lookup relPath
    if toLowerCase got = toLowerCase expHash then some ⟨relPath, got⟩ else none

def changedFiles (sealedByRel suppliedByRel : List (JsString × JsString)) : List Changed :=
  sealedByRel.filterMap fun (relPath, expHash) => do
    let got ← suppliedByRel.lookup relPath
    if toLowerCase got = toLowerCase expHash then none else some ⟨relPath, expHash, got⟩

def missingFiles (sealedByRel suppliedByRel : List (JsString × JsString)) : List JsString :=
  sealedByRel.filterMap fun (relPath, _) =>
    if (suppliedByRel.lookup relPath).isNone then some relPath else none

def unexpectedFiles (sealedByRel suppliedByRel : List (JsString × JsString)) : List Matched :=
  suppliedByRel.filterMap fun (relPath, got) =>
    if (sealedByRel.lookup relPath).isNone then some ⟨relPath, got⟩ else none

-- The content of the header which the caller supplies.
def suppliedHeader (headerContent : Option Bytes) (cfg : SealCfg) : Except JsString (Option Bytes) :=
  match cfg.header, headerContent with
  | none, none              => return none
  | some _, some content    => return some content
  | some _, none            => .error <|
    cfg.label ++ js " verifySeal requires `headerContent` (a header product binds it into the root)"
  | none, some _            => .error <|
    cfg.label ++ js " verifySeal got headerContent but the config declares no header"

-- `_rootFromSupplied`, if there is something to compute it from.
def recomputeRoot (committed : List FileEntry) : Except JsString (Option JsString) :=
  if 0 < committed.length then do
    let built ← hashEntries keccak256 toUtf8Bytes sep <| committed.map (·.toEntry)
    return built.root
  else
    return none

-- The comparison of the files of a seal with those which are supplied.
def compareFiles (s : Seal) (suppliedByRel : List (JsString × JsString)) (recomputedRoot : Option JsString) :
    Verdict :=
  let matched := sortByRel Matched.relPath <| matchedFiles s.files suppliedByRel
  let changed := sortByRel Changed.relPath <| changedFiles s.files suppliedByRel
  let missing := sortByRel id <| missingFiles s.files suppliedByRel
  let unexpected := sortByRel Matched.relPath <| unexpectedFiles s.files suppliedByRel
  let rootMatches := decide <| recomputedRoot.map toLowerCase = some (toLowerCase s.root)
  let accepted := changed.isEmpty && missing.isEmpty && unexpected.isEmpty && rootMatches
  {
    verdict        := if accepted then js "ACCEPTED" else js "REJECTED"
    accepted
    sealedRoot     := s.root
    recomputedRoot
    rootMatches
    counts         := ⟨matched.length, changed.length, missing.length, unexpected.length⟩
    matched
    changed
    missing
    unexpected
  }

def verifySeal (obj : Value) (files : List FileEntry) (cfg : SealCfg) (headerContent : Option Bytes) :
    Except JsString Verdict := do
  let s ← validateSeal keccak256 toUtf8Bytes sep obj cfg
  let entries ← normalizeEntries files cfg false
  let headerContent ← suppliedHeader headerContent cfg
  let suppliedByRel := entries.map fun e => (e.relPath, hashBytes keccak256 e.bytes)
  let recomputedRoot ← recomputeRoot keccak256 toUtf8Bytes sep (committedEntries entries headerContent cfg)
  return compareFiles s suppliedByRel recomputedRoot

end Cli
