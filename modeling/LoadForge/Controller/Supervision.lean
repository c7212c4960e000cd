import Mathlib.Tactic.Ring

namespace LoadForge.Controller

inductive WorkerFate
  | kCompleted | kWorkerError | kStartupFailed | kControllerLostReported | kFault | kKilled
  | kOomKilled | kStoppedByController | kTimedOut | kChannelCorrupt | kTruncatedEvidence
  | kUnrecognised
  deriving DecidableEq

def isClean (fate : WorkerFate) : Bool := fate == .kCompleted

/-- What a wait status says of a process, as the macros of the C library read it. -/
inductive ExitStatus
  | exited (code : Nat)
  | signalled (signal : Nat) (core : Bool)
  | stopped (signal : Nat)
  | continued
  | unrecognised
  deriving DecidableEq

def sigKill : Nat := 9

/-- SIGILL, SIGTRAP, SIGABRT, SIGBUS, SIGFPE and SIGSEGV. -/
def isFaultSignal (signal : Nat) : Bool := [4, 5, 6, 7, 8, 11].contains signal

/-- What the controller holds about how a worker ended. -/
structure Evidence where
  status : ExitStatus := .exited 0
  signalAttempted : Option Nat := none
  staleWhenSignalled : Bool := false
  finishedSeen : Bool := false
  channelCorrupt : Bool := false
  channelTruncated : Bool := false
  oomKillRecorded : Bool := false
  oomInconclusive : Bool := false
  deriving DecidableEq

def kFirstLauncherCode : Nat := 120
def kLastLauncherCode : Nat := 123
def kControllerLostCode : Nat := 124
def kBadArgumentsCode : Nat := 125

def classifyExit (e : Evidence) (code : Nat) : WorkerFate :=
  if code = 0 then
    if e.finishedSeen && !e.channelTruncated then .kCompleted else .kTruncatedEvidence
  else if (kFirstLauncherCode ≤ code ∧ code ≤ kLastLauncherCode) ∨ code = kBadArgumentsCode then
    .kStartupFailed
  else if code = kControllerLostCode then .kControllerLostReported
  else .kWorkerError

def classifySignal (e : Evidence) (signal : Nat) : WorkerFate :=
  if e.signalAttempted = some signal then
    if signal = sigKill ∧ e.oomKillRecorded then .kOomKilled
    else if signal = sigKill ∧ e.oomInconclusive then .kKilled
    else if e.staleWhenSignalled then .kTimedOut
    else .kStoppedByController
  else if isFaultSignal signal then .kFault
  else if signal = sigKill ∧ e.oomKillRecorded then .kOomKilled
  else .kKilled

/-- The fate the evidence supports. A corrupt channel comes first, whatever else happened. -/
def classify (e : Evidence) : WorkerFate :=
  if e.channelCorrupt then .kChannelCorrupt
  else
    match e.status with
    | .exited code => classifyExit e code
    | .signalled signal _ => classifySignal e signal
    | _ => .kUnrecognised

end LoadForge.Controller
