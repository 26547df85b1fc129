import Verifyhash.Cli.ItemManifest

-- The dataset manifests of `cli/dataset.js`, and the roll-up of the hints in them.
namespace Dataset

open Value Json
open Cli (ManifestCfg inherited)

def MANIFEST_KIND : JsString := js "verifyhash.dataset-manifest"
def MANIFEST_SCHEMA_VERSION : ℕ := 1
def SUPPORTED_MANIFEST_SCHEMA_VERSIONS : List ℕ := [1]

def MANIFEST_CFG : ManifestCfg where
  kind                    := MANIFEST_KIND
  schemaVersion           := MANIFEST_SCHEMA_VERSION
  supportedSchemaVersions := SUPPORTED_MANIFEST_SCHEMA_VERSIONS
  note                    := Cli.TRUST_NOTE
  label                   := js "dataset manifest"

def NO_LICENSE_BUCKET : JsString := js "(no license hint)"
def NO_SOURCE_BUCKET : JsString := js "(no source hint)"

def validateManifest (keccak256 : Bytes → Bytes32) (toUtf8Bytes : JsString → Except JsString Bytes) (sep : UInt16)
    (obj : Value) : Except JsString Value :=
  ItemManifest.validateItemManifest keccak256 toUtf8Bytes sep obj MANIFEST_CFG

-- A value of a histogram: a sum is a text if one of its terms is not a number.
inductive Tally
  | number (n : ℕ)
  | text (s : JsString)
  deriving DecidableEq

def Tally.isNumber : Tally → Bool
  | number _ => true
  | text _   => false

def Tally.value : Tally → ℕ
  | number n => n
  | text _   => 0

-- The own properties of a histogram.
abbrev Histogram := List (JsString × Tally)

-- The text of a method of `Object.prototype`.
def methodText (name : JsString) : JsString :=
  js "function " ++ (if name = js "constructor" then js "Object" else name) ++ js "() \x7b [native code] \x7d"

-- `(h[key] || 0) + 1`, where no text is empty.
def Histogram.incremented (h : Histogram) (key : JsString) : Tally :=
  match h.lookup key, inherited key with
  | some (.number n), _  => .number (n + 1)
  | some (.text s), _    => .text (s ++ js "1")
  | none, .undefined     => .number 1
  | none, .function      => .text <| methodText key ++ js "1"
  | none, .object        => .text <| js "[object Object]1"

def Histogram.set : Histogram → JsString → Tally → Histogram
  | [], key, t           => [(key, t)]
  | (k, u) :: h, key, t  => if k = key then (k, t) :: h else (k, u) :: set h key t

-- `h[key] = (h[key] || 0) + 1`. The setter of `__proto__` takes no text.
def Histogram.bump (h : Histogram) (key : JsString) : Histogram :=
  if key = js "__proto__" then h else h.set key <| h.incremented key

def Histogram.total (h : Histogram) : ℕ :=
  (h.map fun e => e.snd.value).sum

-- The license of a file, if it has the hint.
def licenseHint (f : Value) : Option JsString :=
  ((f.get "hints").get "license").toString?

def sourceHint (f : Value) : Option JsString :=
  ((f.get "hints").get "source").toString?

structure Counts where
  licenses             : Histogram
  sources              : Histogram
  filesWithLicenseHint : ℕ
  filesWithSourceHint  : ℕ

-- One turn of the loop over the files.
def Counts.add (c : Counts) (f : Value) : Counts :=
  let license := licenseHint f
  let source := sourceHint f
  {
    licenses             := c.licenses.bump <| license.getD NO_LICENSE_BUCKET
    sources              := c.sources.bump <| source.getD NO_SOURCE_BUCKET
    filesWithLicenseHint := if license.isSome then c.filesWithLicenseHint + 1 else c.filesWithLicenseHint
    filesWithSourceHint  := if source.isSome then c.filesWithSourceHint + 1 else c.filesWithSourceHint
  }

structure Aggregate extends Counts where
  root      : Value
  fileCount : ℕ

-- The files of a manifest which passed the check.
def manifestFiles (manifest : Value) : List Value :=
  match manifest.get "files" with
  | .array files => files
  | _            => []

def aggregateManifest (manifest : Value) : Aggregate :=
  { (manifestFiles manifest).foldl Counts.add ⟨[], [], 0, 0⟩ with
    root      := manifest.get "root"
    fileCount := (manifestFiles manifest).length }

end Dataset
