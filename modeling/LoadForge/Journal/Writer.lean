import LoadForge.Framework.Run
import LoadForge.Journal.RoundTrip

namespace LoadForge.Journal

open Framework List

inductive JournalFault
  | kStorage | kTooLarge | kNotEmpty | kClosed
  deriving DecidableEq

def JournalFault.describe : JournalFault → String
  | .kStorage => "storage failed"
  | .kTooLarge => "entry too large"
  | .kNotEmpty => "journal already written"
  | .kClosed => "journal closed"

structure JournalError where
  fault : JournalFault
  detail : String
  deriving DecidableEq

/-- An append is stored, or fails after the first `written` bytes. -/
inductive Stored
  | ok
  | failed (written : Nat) (detail : String)
  deriving DecidableEq

/-- What the storage answers a sync: nothing, or the words of a failure. -/
abbrev Synced := Option String

def storageAppend (bytes added : List UInt8) : Stored → Except JournalError Unit × List UInt8
  | .ok => (.ok (), bytes ++ added)
  | .failed written detail => (.error ⟨.kStorage, detail⟩, bytes ++ added.take written)

def storageSync : Synced → Except JournalError Unit
  | none => .ok ()
  | some detail => .error ⟨.kStorage, detail⟩

/-- Writes one run's journal into the bytes of its storage. -/
structure FormatWriter where
  bytes : List UInt8
  closed : Bool
  deriving DecidableEq

def openWriter (held : List UInt8) : Except JournalError FormatWriter :=
  if held ≠ [] then .error ⟨.kNotEmpty, "the storage already holds a journal"⟩
  else .ok ⟨held, false⟩

namespace FormatWriter

def put (w : FormatWriter) (added : List UInt8) (stored : Stored) :
    Except JournalError Unit × FormatWriter :=
  ((storageAppend w.bytes added stored).1, { w with bytes := (storageAppend w.bytes added stored).2 })

def append (w : FormatWriter) (entry : Entry) (stored : Stored) :
    Except JournalError Unit × FormatWriter :=
  if w.closed then (.error ⟨.kClosed, "append after close"⟩, w)
  else if kMaxLabelBytes < entry.phase.length ∨ kMaxLabelBytes < entry.workload.length then
    (.error ⟨.kTooLarge, "a label is longer than kMaxLabelBytes"⟩, w)
  else w.put (entryRecord entry) stored

def sync (w : FormatWriter) (synced : Synced) : Except JournalError Unit :=
  if w.closed then .error ⟨.kClosed, "sync after close"⟩ else storageSync synced

/-- Closed once the terminator is in the storage; a sync that fails does not reopen it. -/
def close (w : FormatWriter) (stored : Stored) (synced : Synced) :
    Except JournalError Unit × FormatWriter :=
  if w.closed then (.error ⟨.kClosed, "close after close"⟩, w)
  else
    match w.put terminatorRecord stored with
    | (.error e, w') => (.error e, w')
    | (.ok (), w') => (storageSync synced, { w' with closed := true })

end FormatWriter

/-- The journal of a run: its writer, whether it is still written, and what the report says. -/
structure RunJournal where
  writer : FormatWriter
  live : Bool
  entries : Nat
  fault : Option String
  lastNs : Int
  deriving DecidableEq

/-- A moment at which the run may write an entry, and what the storage does then. -/
structure Write where
  entry : Entry
  elapsed : 0 ≤ entry.elapsedNs
  force : Bool
  stored : Stored
  synced : Synced

namespace RunJournal

def start (writer : FormatWriter) : RunJournal := ⟨writer, true, 0, none, 0⟩

def journalFault (j : RunJournal) (text : String) : RunJournal :=
  { j with fault := some text, live := false }

def faultText (what : String) (e : JournalError) : String :=
  what ++ ": " ++ e.fault.describe ++ ": " ++ e.detail

def writes (intervalNs : Int) (j : RunJournal) (w : Write) : Bool :=
  j.live && (w.force || j.entries == 0 || decide (intervalNs ≤ w.entry.elapsedNs.toInt - j.lastNs))

def writeJournal (intervalNs : Int) (j : RunJournal) (w : Write) : RunJournal :=
  if writes intervalNs j w then
    match j.writer.append w.entry w.stored with
    | (.error e, writer) => { j with writer := writer }.journalFault (faultText "append" e)
    | (.ok (), writer) =>
      match writer.sync w.synced with
      | .error e => { j with writer := writer }.journalFault (faultText "sync" e)
      | .ok () =>
        { j with writer := writer, entries := j.entries + 1, lastNs := w.entry.elapsedNs.toInt }
  else j

def appends (intervalNs : Int) (j : RunJournal) (w : Write) : Bool :=
  writes intervalNs j w && (j.writer.append w.entry w.stored).1.toOption.isSome

/-- The entries whose append succeeded, in the order of the run. -/
def appended (intervalNs : Int) : RunJournal → List Write → List Entry
  | _, [] => []
  | j, w :: ws =>
    (if appends intervalNs j w then [w.entry] else []) ++
      appended intervalNs (writeJournal intervalNs j w) ws

end RunJournal

/-- What the end of a run says on the error stream when the journal cannot be closed. -/
def endJournal (j : RunJournal) (stored : Stored) (synced : Synced) :
    Option String × FormatWriter :=
  match j.writer.close stored synced with
  | (.ok (), writer) => (none, writer)
  | (.error e, writer) =>
    (some ("loadforge: the journal could not be closed, and will read as ended abnormally: " ++
      e.detail ++ "\n"), writer)

namespace FormatWriter

theorem append_cases (w : FormatWriter) (e : Entry) (stored : Stored) (hc : w.closed = false) :
    (stored = .ok ∧ e.phase.length ≤ kMaxLabelBytes ∧ e.workload.length ≤ kMaxLabelBytes ∧
        w.append e stored = (.ok (), ⟨w.bytes ++ entryRecord e, false⟩)) ∨
      (∃ written detail, stored = .failed written detail ∧ e.phase.length ≤ kMaxLabelBytes ∧
        e.workload.length ≤ kMaxLabelBytes ∧ w.append e stored =
          (.error ⟨.kStorage, detail⟩, ⟨w.bytes ++ (entryRecord e).take written, false⟩)) ∨
      ((kMaxLabelBytes < e.phase.length ∨ kMaxLabelBytes < e.workload.length) ∧
        w.append e stored =
          (.error ⟨.kTooLarge, "a label is longer than kMaxLabelBytes"⟩, w)) := by
  have hopen : ¬ (w.closed = true) := by simp [hc]
  by_cases hlabels : kMaxLabelBytes < e.phase.length ∨ kMaxLabelBytes < e.workload.length
  · refine .inr (.inr ⟨hlabels, ?_⟩)
    rw [append, if_neg hopen, if_pos hlabels]
  · have hp : e.phase.length ≤ kMaxLabelBytes := by omega
    have hw : e.workload.length ≤ kMaxLabelBytes := by omega
    cases stored with
    | ok =>
      refine .inl ⟨rfl, hp, hw, ?_⟩
      rw [append, if_neg hopen, if_neg hlabels, put, hc]
      rfl
    | failed written detail =>
      refine .inr (.inl ⟨written, detail, rfl, hp, hw, ?_⟩)
      rw [append, if_neg hopen, if_neg hlabels, put, hc]
      rfl

theorem close_ok (w : FormatWriter) (synced : Synced) (hc : w.closed = false) :
    w.close .ok synced = (storageSync synced, ⟨w.bytes ++ terminatorRecord, true⟩) := by
  simp [close, hc, put, storageAppend]

/-- The entries of a journal appended one after the other to a storage that takes all of them. -/
def appendAll (w : FormatWriter) (es : List Entry) : FormatWriter :=
  es.foldl (fun w e => (w.append e .ok).2) w

theorem appendAll_eq (es : List Entry) (w : FormatWriter) (hc : w.closed = false)
    (hes : ∀ e ∈ es, Writable e) : w.appendAll es = ⟨w.bytes ++ es.flatMap entryRecord, false⟩ := by
  induction es generalizing w with
  | nil =>
    cases w
    simp only [appendAll, foldl_nil, flatMap_nil, append_nil] at hc ⊢
    rw [hc]
  | cons e es ih =>
    have he : Writable e := hes e (by simp)
    have hstep : (w.append e .ok).2 = ⟨w.bytes ++ entryRecord e, false⟩ := by
      have hlabels : ¬ (kMaxLabelBytes < e.phase.length ∨ kMaxLabelBytes < e.workload.length) := by
        have hp := he.phase
        have hw := he.workload
        omega
      rw [append, if_neg (by simp [hc]), if_neg hlabels, put, hc]
      rfl
    have hrest := ih (w.append e .ok).2 (by rw [hstep]) fun e' he' => hes e' (by simp [he'])
    rw [appendAll, foldl_cons]
    rw [appendAll] at hrest
    rw [hrest, hstep, flatMap_cons, append_assoc]

end FormatWriter

end LoadForge.Journal
