import Verifyhash.Timestamp.Der

-- The way from the wrapper of a timestamp token to its contents.
namespace Rfc3161

open Value Json

-- The tag of an explicit context.
def CONTEXT (n : UInt8) : UInt8 :=
  0xa0 + n

-- The wrappers on the way to the contents of a token.
structure Wrappers where
  contentInfo      : TLV
  content          : TLV
  signedData       : TLV
  encapContentInfo : TLV
  eContent         : TLV
  octet            : TLV
  deriving DecidableEq

-- `reachTSTInfo`, which returns the range of the last of the wrappers.
def reachTSTInfo (buf : Bytes) : Except Failure Wrappers := do
  let ci ← expectTLV buf 0 buf.length TAG.SEQUENCE "ContentInfo SEQUENCE"
  throwIf (ci.next ≠ buf.length) <| js "trailing bytes after ContentInfo"
  let ct ← expectTLV buf ci.valStart ci.valEnd TAG.OID "ContentInfo.contentType OID"
  let ctOid ← decodeOID buf ct.valStart ct.valEnd
  throwIf (ctOid ≠ OID.signedData) <| js "ContentInfo.contentType is " ++ ctOid ++ js ", expected signedData (" ++
    OID.signedData ++ js ")"
  let content ← expectTLV buf ct.next ci.valEnd (CONTEXT 0) "ContentInfo.content [0] EXPLICIT"
  let sd ← expectTLV buf content.valStart content.valEnd TAG.SEQUENCE "SignedData SEQUENCE"
  let sdVer ← expectTLV buf sd.valStart sd.valEnd TAG.INTEGER "SignedData.version"
  let digestAlgs ← expectTLV buf sdVer.next sd.valEnd TAG.SET "SignedData.digestAlgorithms SET"
  let enc ← expectTLV buf digestAlgs.next sd.valEnd TAG.SEQUENCE "encapContentInfo SEQUENCE"
  let eContentType ← expectTLV buf enc.valStart enc.valEnd TAG.OID "eContentType OID"
  let eOid ← decodeOID buf eContentType.valStart eContentType.valEnd
  throwIf (eOid ≠ OID.tstInfo) <| js "eContentType is " ++ eOid ++ js ", not id-ct-TSTInfo (" ++ OID.tstInfo ++
    js ") — this is not an RFC-3161 TimeStampToken"
  let eContent ← expectTLV buf eContentType.next enc.valEnd (CONTEXT 0) "eContent [0] EXPLICIT"
  let octet ← expectTLV buf eContent.valStart eContent.valEnd TAG.OCTET_STRING "TSTInfo OCTET STRING"
  return ⟨ci, content, sd, enc, eContent, octet⟩

structure MessageImprint where
  hashAlgorithmOID : JsString
  hashedMessage    : JsString
  deriving DecidableEq

structure TSTInfo where
  version        : Number
  policyOID      : JsString
  messageImprint : MessageImprint
  serialNumber   : UInt
  genTime        : JsString
  genTimeEpochMs : ℤ
  deriving DecidableEq

-- The contents of the element `seq`, which the function below has found at the start of the range.
def parseFields (buf : Bytes) (seq : TLV) : Except Failure TSTInfo := do
  let limit := seq.valEnd
  let ver ← expectTLV buf seq.valStart limit TAG.INTEGER "TSTInfo.version"
  let version := ofRational false (← decodeUInt buf ver.valStart ver.valEnd "TSTInfo.version").decimal
  throwIf (version ≠ .finite 1) <| js "unsupported TSTInfo version " ++ numberString version ++ js " (expected 1)"
  let pol ← expectTLV buf ver.next limit TAG.OID "TSTInfo.policy OID"
  let policyOID ← decodeOID buf pol.valStart pol.valEnd
  let mi ← expectTLV buf pol.next limit TAG.SEQUENCE "messageImprint SEQUENCE"
  let alg ← expectTLV buf mi.valStart mi.valEnd TAG.SEQUENCE "hashAlgorithm AlgorithmIdentifier SEQUENCE"
  let algOid ← expectTLV buf alg.valStart alg.valEnd TAG.OID "hashAlgorithm OID"
  let hashAlgorithmOID ← decodeOID buf algOid.valStart algOid.valEnd
  let hm ← expectTLV buf alg.next mi.valEnd TAG.OCTET_STRING "hashedMessage OCTET STRING"
  let hashedMessage := (← slice buf hm.valStart hm.valEnd).flatMap hexByte
  let ser ← expectTLV buf mi.next limit TAG.INTEGER "TSTInfo.serialNumber"
  let serial ← decodeUInt buf ser.valStart ser.valEnd "TSTInfo.serialNumber"
  let gt ← expectTLV buf ser.next limit TAG.GENERALIZED_TIME "TSTInfo.genTime"
  let time ← decodeGeneralizedTime buf gt.valStart gt.valEnd
  return ⟨version, policyOID, ⟨hashAlgorithmOID, hashedMessage⟩, serial, time.iso, time.epochMs⟩

def parseTSTInfo (buf : Bytes) (start limit : ℕ) : Except Failure TSTInfo := do
  let seq ← expectTLV buf start limit TAG.SEQUENCE "TSTInfo SEQUENCE"
  parseFields buf seq

-- `parseTimeStampToken` of a buffer.
def parseTimeStampToken (buf : Bytes) : Except Failure TSTInfo := do
  throwIf (buf = []) <| js "empty input"
  let range ← reachTSTInfo buf
  parseTSTInfo buf range.octet.valStart range.octet.valEnd

end Rfc3161
