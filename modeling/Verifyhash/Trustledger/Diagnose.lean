import Verifyhash.Trustledger.Ingest

-- The diagnosis of `trustledger/ingest.js`, which reports the errors of the strict parsers.
namespace Ingest

structure ReportError where
  row     : Option ℕ
  message : JsString
  deriving DecidableEq

structure Report where
  source          : Source
  format          : Format
  header          : List JsString
  mapped          : List (JsString × Option JsString)
  requiredMissing : List String
  rowCount        : ℕ
  okCount         : ℕ
  records         : List Record
  errors          : List ReportError
  sample          : List Record

def Report.empty (source : Source) (format : Format) : Report where
  source          := source
  format          := format
  header          := []
  mapped          := []
  requiredMissing := []
  rowCount        := 0
  okCount         := 0
  records         := []
  errors          := []
  sample          := []

-- The error of a whole file.
def Report.fail (report : Report) (message : JsString) : Report :=
  { report with errors := report.errors ++ [⟨none, message⟩] }

-- One step of the loop over the rows.
def Report.add (sampleSize : ℕ) (report : Report) (row : ℕ) (result : Except IngestError Record) : Report :=
  let report := { report with rowCount := report.rowCount + 1 }
  match result with
  | .ok rec    => { report with
      records := report.records ++ [rec]
      okCount := report.okCount + 1
      sample  := if report.sample.length < sampleSize then report.sample ++ [rec] else report.sample
    }
  | .error err => { report with errors := report.errors ++ [⟨some row, err.message⟩] }

-- The loop over the rows, each with its number.
def Report.addAll (sampleSize : ℕ) (build : α → ℕ → Except IngestError Record) (report : Report) (rows : List (α × ℕ)) :
    Report :=
  rows.foldl (fun report row => report.add sampleSize row.2 <| build row.1 row.2) report

section

variable (toLowerCase : JsString → JsString)

def diagnoseOFX (sampleSize : ℕ) (text : JsString) : Report :=
  let report := { Report.empty .bank .ofx with
    header := [js "DTPOSTED", js "TRNAMT", js "TRNTYPE", js "NAME/MEMO"]
    mapped := [
      (js "date", some <| js "DTPOSTED"), (js "amount", some <| js "TRNAMT"), (js "type", some <| js "TRNTYPE"),
      (js "memo", some <| js "NAME/MEMO")
    ]
  }
  match ofxBlocks text with
  | .error err => report.fail err.message
  | .ok blocks =>
    if blocks = [] then report.fail <| js "OFX document has no <STMTTRN> transactions"
    else report.addAll sampleSize (fun block row => buildOFXRecord toLowerCase block ⟨row, .bank⟩) (blocks.zipIdx 1)

-- The entry of `DIAGNOSE_CONFIG` for a source, which has the values of the strict parser.
def diagnoseConfig : Source → Config
  | .bank       => bankConfig toLowerCase
  | .quickbooks => quickBooksConfig toLowerCase
  | .rentRoll   => rentRollConfig toLowerCase

def diagnoseCSV (cfg : Config) (sampleSize : ℕ) (columnMap : Option ColumnMap) (text : JsString) : Report :=
  let report := Report.empty cfg.source .csv
  let rows := parseCSV text
  match rows.head? with
  | none        => report.fail <| js "empty " ++ cfg.source.text ++ js " file"
  | some header =>
    let report := { report with header }
    let rowCount := rows.length - 1
    match indexHeader toLowerCase header cfg.schema cfg.source columnMap with
    | .error err => { report.fail err.message with rowCount }
    | .ok cols   =>
      let report := { report with
        mapped          := cfg.schema.map fun (entry : JsString × List JsString) =>
          (entry.1, (cols.lookup entry.1).bind (header[·]?))
        requiredMissing := cfg.required.filter fun n => (cols.index n).isNone
      }
      let hasSigned := (cols.index "amount").isSome
      let groupPresent : Bool :=
        hasSigned ∨ (cols.index cfg.split.1).isSome ∨ (cols.index cfg.split.2).isSome
      if ¬ groupPresent then { report.fail <| js cfg.amount with rowCount }
      else if report.requiredMissing ≠ [] then { report with rowCount }
      else report.addAll sampleSize (fun row n => cfg.build row cols hasSigned ⟨n, cfg.source⟩) (dataRows rows)

def diagnoseSource (source : Source) (sampleSize : ℕ) (format : Option Format) (columnMap : Option ColumnMap)
    (text : Option JsString) : Report :=
  match text with
  | none      => (Report.empty source .csv).fail <| js "no " ++ source.text ++ js " input"
  | some text =>
    if source = .bank ∧ formatOf format text = .ofx then diagnoseOFX toLowerCase sampleSize text
    else diagnoseCSV toLowerCase (diagnoseConfig toLowerCase source) sampleSize columnMap text

-- The strict parser of a source.
def parseSource (source : Source) (format : Option Format) (columnMap : Option ColumnMap) (text : Option JsString) :
    Except IngestError (List Record) :=
  match source with
  | .bank       => parseBankStatement toLowerCase format columnMap text
  | .quickbooks => parseQuickBooksCSV toLowerCase columnMap text
  | .rentRoll   => parseRentRollCSV toLowerCase columnMap text

end

end Ingest
