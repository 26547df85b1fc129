import Verifyhash.VerifierRs.Json
import Verifyhash.VerifierRs.Merkle
import Verifyhash.VerifierRs.Render
import Verifyhash.VerifierRs.Secp256k1

-- The checks of the files of a seal of `verifier-rs/src/main.rs`. An error has the message of `VhError::Io`.
namespace VerifierRs

open RustJson (ChangedEntry)
open Secp256k1 (hexByte)

-- What is asked of the file system about a path below the base directory: whether it is absolute, what is read from it,
-- and whether its canonical path starts with that of the base, if both have one.
structure FileSystem where
  is_absolute : List Char → Bool
  read        : List Char → Option Bytes
  starts_with : List Char → Option Bool

inductive ReadStatus
  | ok (data : Bytes)
  | missing
  | escaped
  deriving DecidableEq

structure FileResult where
  matched         : List (List Char × List Char)
  changed         : List ChangedEntry
  missing         : List (List Char)
  escaped         : List (List Char)
  sealed_root     : List Char
  recomputed_root : Option (List Char)
  root_matches    : Bool
  files_ok        : Bool

def bytes_to_hex0x (bytes : Bytes) : List Char :=
  "0x".toList ++ bytes.flatMap hexByte

-- `u8::is_ascii_hexdigit`
def is_ascii_hexdigit (b : UInt8) : Bool :=
  (Hex.digit? b.toUInt16).isSome

def is_hex32 (s : List Char) : Bool :=
  (Unicode.utf8 s).length = 66 ∧ "0x".toList.isPrefixOf s ∧ ((Unicode.utf8 s).drop 2).all is_ascii_hexdigit

-- Only the ASCII letters have another case for `Char.toLower`.
def eq_ignore_ascii_case (s t : List Char) : Bool :=
  s.map Char.toLower = t.map Char.toLower

def read_entry (fs : FileSystem) (rel_path : List Char) : ReadStatus :=
  if rel_path.isEmpty then
    .escaped
  else if fs.is_absolute rel_path then
    .escaped
  else if (rel_path.splitOnP fun c => c = '/' ∨ c = '\\').any (· = ['.', '.']) then
    .escaped
  else
    match fs.read rel_path with
    | none      => .missing
    | some data => if fs.starts_with rel_path = some false then .escaped else .ok data

-- The lists which the loop over the files extends.
structure Classified where
  matched : List (List Char × List Char) := []
  changed : List ChangedEntry := []
  missing : List (List Char) := []
  escaped : List (List Char) := []
  flat    : List (List Char × Digest) := []

def demand (o : Option α) (message : String) : Except String α :=
  match o with
  | some a => .ok a
  | none   => .error message

variable (fs : FileSystem)

-- One turn of the loop, after the fields of the entry are read.
def classify (acc : Classified) (rel_path content_hash : List Char) : Classified :=
  match read_entry fs rel_path with
  | .escaped => { acc with escaped := acc.escaped ++ [rel_path] }
  | .missing => { acc with missing := acc.missing ++ [rel_path] }
  | .ok data =>
    let digest := keccak256 data
    let acc := { acc with flat := acc.flat ++ [(rel_path, digest)] }
    let actual := bytes_to_hex0x digest.val
    if eq_ignore_ascii_case actual content_hash then
      { acc with matched := acc.matched ++ [(rel_path, actual)] }
    else
      { acc with changed := acc.changed ++ [{ rel_path, expected := content_hash, actual }] }

def verifyFile (acc : Classified) (entry : RustJson.Value) : Except String Classified := do
  let rel_path ← demand ((entry.get "relPath".toList).bind RustJson.Value.as_str)
    "evidence seal file entry missing `relPath`"
  let content_hash ← demand ((entry.get "contentHash".toList).bind RustJson.Value.as_str)
    "evidence seal file entry missing `contentHash`"
  return classify fs acc rel_path content_hash

-- The result after the loop.
def conclude (root : List Char) (acc : Classified) : FileResult :=
  let recomputed_root :=
    if acc.flat.isEmpty then none else (rootFromFlat acc.flat).map fun r => bytes_to_hex0x r.val
  let root_matches := acc.missing.isEmpty ∧ acc.changed.isEmpty ∧ acc.escaped.isEmpty ∧
    (recomputed_root.map fun r => eq_ignore_ascii_case r root).getD false
  {
    matched         := acc.matched
    changed         := acc.changed
    missing         := acc.missing
    escaped         := acc.escaped
    sealed_root     := root
    recomputed_root
    root_matches
    files_ok        := acc.changed.isEmpty ∧ acc.missing.isEmpty ∧ acc.escaped.isEmpty ∧ root_matches
  }

def verify_evidence_seal (sealed : RustJson.Value) : Except String FileResult := do
  let files ← demand ((sealed.get "files".toList).bind RustJson.Value.as_array)
    "evidence seal `files` must be a non-empty array"
  if files.isEmpty then
    throw "evidence seal `files` must be a non-empty array"
  let root ← demand (((sealed.get "root".toList).bind RustJson.Value.as_str).filter is_hex32)
    "evidence seal `root` must be a 0x-prefixed 32-byte hex string"
  return conclude root (← files.foldlM (verifyFile fs) {})

end VerifierRs
