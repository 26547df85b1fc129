import Verifyhash.Cli.PacketSeal

-- The evidence seals of `cli/evidence.js`, which have no header.
namespace Cli.Evidence

open Hex Value Json Checks

def SEAL_KIND : JsString := js "vh.evidence-seal"
def SEAL_SCHEMA_VERSION : ℕ := 1
def SUPPORTED_SEAL_SCHEMA_VERSIONS : List ℕ := [1]

def EVIDENCE_TRUST_NOTE : JsString :=
  js "This evidence seal is TAMPER-EVIDENT + OFFLINE-RECOMPUTABLE, NOT a trusted timestamp. Its Merkle " ++
  js "`root` commits to the full set of (relPath, content) pairs in the directory: any edit, rename, add, " ++
  js "or remove changes the root, and verify RE-DERIVES the root from the bytes you hold and LOCALIZES the " ++
  js "change to the exact file (MATCH / CHANGED / MISSING / UNEXPECTED). It does NOT prove WHEN the sealing " ++
  js "happened (\"sealed at T\" rides the human-owned signing/timestamp trust-root, STRATEGY.md P-3) and it " ++
  js "is NOT a legal opinion. The packet is an UNTRUSTED transport container: verify never trusts the " ++
  js "packet's own stored hashes."

def SEAL_CFG : SealCfg where
  kind                    := SEAL_KIND
  schemaVersion           := SEAL_SCHEMA_VERSION
  supportedSchemaVersions := SUPPORTED_SEAL_SCHEMA_VERSIONS
  note                    := EVIDENCE_TRUST_NOTE
  label                   := js "evidence seal"
  header                  := none

-- The text of the object with exactly the fields of a seal, on a line of its own.
def canonicalText (s : BuiltSeal) : Option JsString :=
  (stringify { s with header := none }.toValue).map (· ++ [10])

variable (keccak256 : Bytes → Bytes32) (toUtf8Bytes : JsString → Except JsString Bytes) (sep : UInt16)

def buildSeal (entries : List FileEntry) : Except JsString BuiltSeal :=
  Cli.buildSeal keccak256 toUtf8Bytes sep entries none SEAL_CFG

def serializeSeal (s : BuiltSeal) : Except JsString (Option JsString) := do
  let _ ← validateSeal keccak256 toUtf8Bytes sep s.toValue SEAL_CFG
  return canonicalText s

end Cli.Evidence
