import Verifyhash.Cli.PacketSeal
import Verifyhash.Verifier.Merkle

-- The free seals of `verifier/lib/seal-evidence.js`. Entries and seals have the fields of the producer.
namespace Verifier.SealEvidence

open Hex Value Json Checks
open Cli (FileEntry SealedFile BuiltSeal sortByRel)

def SEAL_KIND : JsString := js "vh.evidence-seal"
def SEAL_SCHEMA_VERSION : ℕ := 1
def SAMPLE_LIMIT : ℕ := 25

def EVIDENCE_TRUST_NOTE : JsString :=
  js "This evidence seal is TAMPER-EVIDENT + OFFLINE-RECOMPUTABLE, NOT a trusted timestamp. Its Merkle " ++
  js "`root` commits to the full set of (relPath, content) pairs in the directory: any edit, rename, add, " ++
  js "or remove changes the root, and verify RE-DERIVES the root from the bytes you hold and LOCALIZES the " ++
  js "change to the exact file (MATCH / CHANGED / MISSING / UNEXPECTED). It does NOT prove WHEN the sealing " ++
  js "happened (\"sealed at T\" rides the human-owned signing/timestamp trust-root, STRATEGY.md P-3) and it " ++
  js "is NOT a legal opinion. The packet is an UNTRUSTED transport container: verify never trusts the " ++
  js "packet's own stored hashes."

-- One turn of the loop over the entries, after the paths which are seen.
def normalizeEntry (seen : List JsString) (e : FileEntry) : Except JsString Unit := do
  require (e.relPath ≠ []) <| js "evidence seal entry relPath must be a non-empty string"
  require (e.relPath = toPosixRel e.relPath) <|
    js "evidence seal entry relPath must be canonical POSIX form (forward slashes, no leading \"./\"): got " ++
      shown (string e.relPath) ++ js ", expected " ++ shown (string <| toPosixRel e.relPath) ++
      js ". Normalize relPaths before sealing (a POSIX directory walk already does this); the free core " ++
      js "refuses non-canonical paths so its seal stays byte-identical to the paid CLI."
  require (e.relPath ∉ seen) <|
    js "evidence seal has a duplicate relPath across the file set: " ++ shown (string e.relPath) ++
      js " (every entry must occupy a distinct path)"

-- `_normalizeEntries`
def normalizeEntries (entries : List FileEntry) : Except JsString (List FileEntry) := do
  require (entries ≠ []) <| js "evidence seal `entries` must be a non-empty array of \x7b relPath, bytes \x7d"
  require (entries.length ≤ SAMPLE_LIMIT) <|
    js "the free evidence seal is limited to " ++ natText SAMPLE_LIMIT ++ js " files (got " ++
      natText entries.length ++ js "); sealing more is the paid `evidence_unlimited` entitlement in the full " ++
      js "verifyhash CLI (`vh evidence seal`)."
  Keyed.each normalizeEntry FileEntry.relPath [] entries
  return entries

-- The function `keccak256` of `js-sha3`.
variable (keccak256 : Bytes → Bytes32)

def sealFile (e : FileEntry) : Except JsString SealedFile := do
  let contentHash := hashBytes keccak256 e.bytes
  let leaf ← pathLeaf keccak256 e.relPath contentHash
  return { relPath := e.relPath, contentHash, leaf }

def buildEvidenceSeal (entries : List FileEntry) : Except JsString BuiltSeal := do
  let entries ← normalizeEntries entries
  let files ← entries.mapM <| sealFile keccak256
  let files := sortByRel SealedFile.relPath files
  let root ← rootFromFlat keccak256 <| files.map fun f => (f.relPath, f.contentHash)
  return {
    kind          := SEAL_KIND
    schemaVersion := SEAL_SCHEMA_VERSION
    note          := EVIDENCE_TRUST_NOTE
    root
    fileCount     := files.length
    files
    header        := none
  }

-- The text of the object with exactly the fields of a seal, on a line of its own.
def serializeEvidenceSeal (s : BuiltSeal) : Option JsString :=
  (stringify { s with header := none }.toValue).map (· ++ [10])

end Verifier.SealEvidence
