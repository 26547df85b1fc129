import Verifyhash.Library.Numeral

-- The output of `render_json` of `verifier-rs/src/main.rs`.
namespace RustJson

structure ChangedEntry where
  rel_path : List Char
  expected : List Char
  actual   : List Char

structure VerifyResult where
  artifact              : List Char
  kind                  : List Char
  payload_kind          : Option (List Char)
  signed                : Bool
  reason                : List Char
  accepted              : Bool
  recovered_signer      : Option (List Char)
  claimed_signer        : Option (List Char)
  pinned_vendor         : Option (List Char)
  signature_ok          : Option Bool
  signer_matches_vendor : Option Bool
  sealed_root           : Option (List Char)
  recomputed_root       : Option (List Char)
  root_matches          : Option Bool
  matched               : List (List Char × List Char)
  changed               : List ChangedEntry
  missing               : List (List Char)
  escaped               : List (List Char)
  unexpected            : List (List Char)
  exact_dir             : Bool

def TRUST_NOTE : List Char :=
  "verify-vh is an INDEPENDENT, read-only, OFFLINE verifier. It RE-DERIVES the keccak root ".toList ++
    "from the bytes you hold and recovers the signer with no producer stack. ".toList ++
    "It proves TAMPER-EVIDENCE + WHO vouched — NOT a trusted timestamp and NOT a legal opinion.".toList

def escapeChar (c : Char) : List Char :=
  if c = '"' then ['\\', '"']
  else if c = '\\' then ['\\', '\\']
  else if c = '\n' then ['\\', 'n']
  else if c = '\r' then ['\\', 'r']
  else if c = '\t' then ['\\', 't']
  else if c.toNat < 0x20 then ['\\', 'u'] ++ (Numeral.digits 16 4 c.toNat).map Nat.digitChar
  else [c]

def json_escape (s : List Char) : List Char :=
  s.flatMap escapeChar

def quoted (s : List Char) : List Char :=
  ['"'] ++ json_escape s ++ ['"']

def opt_str_json (v : Option (List Char)) : List Char :=
  match v with
  | some s => quoted s
  | none   => "null".toList

def bool_json (b : Bool) : List Char :=
  if b then "true".toList else "false".toList

def opt_bool_json (v : Option Bool) : List Char :=
  match v with
  | some b => bool_json b
  | none   => "null".toList

-- A key and the text of its value.
def entry (key : String) (value : List Char) : List Char :=
  ['"'] ++ key.toList ++ "\": ".toList ++ value

-- The lines of an object, of which the last one has no comma.
def lines (indent : String) : List (String × List Char) → List Char
  | []             => []
  | [(key, value)] => indent.toList ++ entry key value
  | (key, value) :: kvs => indent.toList ++ entry key value ++ [','] ++ lines indent kvs

def row (fields : List (String × List Char)) : List Char :=
  ['{'] ++ lines " " (fields.map fun kv => (kv.fst, quoted kv.snd)) ++ " \x7d".toList

-- The rows of an array, each after a comma but the first.
def rows : List (List Char) → List Char
  | []      => []
  | [r]     => "\n    ".toList ++ r
  | r :: rs => "\n    ".toList ++ r ++ [','] ++ rows rs

def listing (rs : List (List Char)) : List Char :=
  ['['] ++ rows rs ++ if rs.isEmpty then [']'] else "\n  ]".toList

def count (n : ℕ) : List Char :=
  (toString n).toList

def counts (r : VerifyResult) : List Char :=
  ['{'] ++ lines "\n    " [
    ("matched", count r.matched.length), ("changed", count r.changed.length), ("missing", count r.missing.length),
    ("escaped", count r.escaped.length), ("unexpected", count r.unexpected.length)
  ] ++ "\n  \x7d".toList

def relPaths (paths : List (List Char)) : List Char :=
  listing <| paths.map fun m => row [("relPath", m)]

def fields (r : VerifyResult) : List (String × List Char) := [
    ("artifact", quoted r.artifact),
    ("kind", quoted r.kind),
    ("payloadKind", opt_str_json r.payload_kind),
    ("signed", bool_json r.signed),
    ("verdict", (if r.accepted then "\"OK\"" else "\"REJECTED\"").toList),
    ("reason", quoted r.reason),
    ("accepted", bool_json r.accepted),
    ("recoveredSigner", opt_str_json r.recovered_signer),
    ("claimedSigner", opt_str_json r.claimed_signer),
    ("pinnedVendor", opt_str_json r.pinned_vendor),
    ("signatureOk", opt_bool_json r.signature_ok),
    ("signerMatchesVendor", opt_bool_json r.signer_matches_vendor),
    ("sealedRoot", opt_str_json r.sealed_root),
    ("recomputedRoot", opt_str_json r.recomputed_root),
    ("rootMatches", opt_bool_json r.root_matches),
    ("counts", counts r),
    ("matched", listing <| r.matched.map fun m => row [("relPath", m.fst), ("contentHash", m.snd)]),
    ("changed", listing <| r.changed.map fun ch =>
      row [("relPath", ch.rel_path), ("expectedContentHash", ch.expected), ("actualContentHash", ch.actual)]),
    ("missing", relPaths r.missing),
    ("escaped", relPaths r.escaped),
    ("unexpected", relPaths r.unexpected)
  ] ++ (if r.exact_dir then [("exactDir", bool_json true)] else []) ++ [("note", quoted TRUST_NOTE)]

def render_json (r : VerifyResult) : List Char :=
  ['{'] ++ lines "\n  " (fields r) ++ "\n\x7d".toList

end RustJson
