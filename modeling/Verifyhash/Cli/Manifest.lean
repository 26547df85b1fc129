import Verifyhash.Cli.Hash
import Verifyhash.Data.Checks
import Verifyhash.Library.Keyed

-- The manifests of `cli/core/manifest.js`, as they are built without hints.
namespace Cli

open Hex Value Json Checks

def TRUST_NOTE : JsString :=
  js "The Merkle root commits to the full set of (relPath, content) pairs (names AND bytes): any edit, " ++
  js "rename, add, or remove changes the root. Per-file `hints` (source/license) are UNTRUSTED, " ++
  js "self-asserted metadata — they are NOT bound into the root and prove nothing."

-- The framing of a product, with its label.
structure ManifestCfg where
  kind                    : JsString
  schemaVersion           : ℕ
  supportedSchemaVersions : List ℕ
  note                    : JsString
  label                   : JsString

-- What is read from an object without properties of its own.
inductive Inherited
  | undefined
  | object
  | function
  deriving DecidableEq

-- The names of the methods of `Object.prototype`.
def inheritedMethods : List JsString := [
  js "constructor", js "toString", js "toLocaleString", js "valueOf", js "hasOwnProperty", js "isPrototypeOf",
  js "propertyIsEnumerable", js "__defineGetter__", js "__defineSetter__", js "__lookupGetter__",
  js "__lookupSetter__"
]

-- `hints[path]`, where `hints` is the object `{}`.
def inherited (path : JsString) : Inherited :=
  if path ∈ inheritedMethods then .function
  else if path = js "__proto__" then .object
  else .undefined

structure ManifestFile where
  relPath     : JsString
  contentHash : JsString
  leaf        : JsString
  hints       : Inherited

structure Manifest where
  kind          : JsString
  schemaVersion : ℕ
  note          : JsString
  root          : Option JsString
  fileCount     : ℕ
  files         : List ManifestFile

variable (keccak256 : Bytes → Bytes32) (toUtf8Bytes : JsString → Except JsString Bytes) (sep : UInt16)

-- One turn of the loop over the files, after the paths which are seen. Their number is the index.
def checkManifestFile (label : JsString) (seen : List JsString) (entry : ManifestFile) :
    Except JsString Unit := do
  let file := label ++ js " files[" ++ natText seen.length ++ js "]"
  require (entry.relPath ≠ []) <| file ++ js ".relPath must be a non-empty string, got: " ++ entry.relPath
  require (entry.relPath ∉ seen) <| label ++ js " has a duplicate relPath: " ++ shown (string entry.relPath)
  require (isHex32 entry.contentHash) <|
    file ++ js ".contentHash must be a 0x-prefixed 32-byte hex string, got: " ++ entry.contentHash
  require (isHex32 entry.leaf) <|
    file ++ js ".leaf must be a 0x-prefixed 32-byte hex string, got: " ++ entry.leaf
  let expectedLeaf ← pathLeaf keccak256 toUtf8Bytes sep entry.relPath entry.contentHash
  require (toLowerCase entry.leaf = toLowerCase expectedLeaf) <|
    file ++ js ".leaf is inconsistent with its relPath+contentHash (expected " ++ expectedLeaf ++
      js ", got " ++ entry.leaf ++ js ")"
  -- The object which is inherited has neither a source nor a license.
  require (entry.hints ≠ .function) <| file ++ js ".hints must be an object when present"

def validateItemManifest (obj : Manifest) (cfg : ManifestCfg) : Except JsString Manifest := do
  require (obj.kind = cfg.kind) <|
    js "not a verifyhash " ++ cfg.label ++ js " (kind: " ++ shown (string obj.kind) ++ js "; expected " ++
      shown (string cfg.kind) ++ js ")"
  require (obj.schemaVersion ∈ cfg.supportedSchemaVersions) <|
    js "unsupported " ++ cfg.label ++ js " schemaVersion: " ++ shown (nat obj.schemaVersion) ++
      js " (this build understands " ++ shown (array <| cfg.supportedSchemaVersions.map nat) ++ js ")"
  require (∃ root ∈ obj.root, isHex32 root) <|
    cfg.label ++ js " root must be a 0x-prefixed 32-byte hex string, got: " ++ obj.root.getD (js "undefined")
  require (obj.files ≠ []) <|
    cfg.label ++ js " files must be non-empty (a manifest over zero files is invalid)"
  require (obj.fileCount = obj.files.length) <|
    cfg.label ++ js " fileCount (" ++ natText obj.fileCount ++ js ") does not match files length (" ++
      natText obj.files.length ++ js ")"
  Keyed.each (checkManifestFile keccak256 toUtf8Bytes sep cfg.label) ManifestFile.relPath [] obj.files
  return obj

-- The files of the manifest over the leaves which `hashEntries` returns.
def manifestFiles (built : DirTree) : List ManifestFile :=
  built.leaves.map fun (path, leaf, contentHash) =>
    { relPath := path, contentHash, leaf, hints := inherited path }

def itemManifest (built : DirTree) (cfg : ManifestCfg) : Manifest where
  kind          := cfg.kind
  schemaVersion := cfg.schemaVersion
  note          := cfg.note
  root          := built.root
  fileCount     := built.leaves.length
  files         := manifestFiles built

def buildItemManifest (built : DirTree) (cfg : ManifestCfg) : Except JsString Manifest :=
  validateItemManifest keccak256 toUtf8Bytes sep (itemManifest built cfg) cfg

end Cli
