import LoadForge.Framework.Mirror
import LoadForge.Worker.TickRules

namespace LoadForge.Worker

open Framework Verification Verification.Integrity List

/-- What a worker's commands made of it, as far as its controller keeps track. -/
structure View where
  paused : Bool := false
  idleNs : Int := 0
  deriving DecidableEq

/-- What an answered message makes of a view: a command that was refused changes nothing. -/
def obey (view : View) (message : ControlMessage) (ack : ControlAck) : View :=
  match ack.status, message.command with
  | .kDone, .pause => { view with paused := true }
  | .kDone, .resume => { view with paused := false }
  | .kDone, .setDuty duty => { view with idleNs := Worker.idleNs duty }
  | _, _ => view

def Ticker.view (t : Ticker) : View := ⟨t.paused, Worker.idleNs t.duty.duty⟩

def ackOf : Sent → Option ControlAck
  | .ack a => some a
  | _ => none

def Ticker.acks (t : Ticker) : List ControlAck := t.sent.filterMap ackOf

/-- It answered these messages, and nothing else its controller tracks changed. -/
structure Replies (t : Ticker) (answered : List (ControlMessage × ControlAck)) (t' : Ticker) :
    Prop where
  sent : ∃ fresh, t'.sent = t.sent ++ fresh ∧ fresh.filterMap ackOf = answered.map Prod.snd
  fits : ∀ p ∈ answered, p.2.sequence = p.1.sequence ∧ p.2.detail.length ≤ kMaxTextBytes
  view : t'.view = obeyAll obey t.view answered

theorem Replies.trans {t t' t'' : Ticker} {first second : List (ControlMessage × ControlAck)}
    (h : Replies t first t') (h' : Replies t' second t'') : Replies t (first ++ second) t'' := by
  obtain ⟨⟨fresh, hsent, hacks⟩, hfits, hview⟩ := h
  obtain ⟨⟨fresh', hsent', hacks'⟩, hfits', hview'⟩ := h'
  refine ⟨⟨fresh ++ fresh', ?_, ?_⟩, ?_, ?_⟩
  · rw [hsent', hsent, append_assoc]
  · simp [hacks, hacks']
  · intro p hp
    rcases mem_append.mp hp with hfirst | hsecond
    · exact hfits p hfirst
    · exact hfits' p hsecond
  · rw [hview', hview, obeyAll, obeyAll, obeyAll, foldl_append]

variable {answered : List (ControlMessage × ControlAck)}

theorem Replies.quiet {t t' t'' : Ticker} (h : Replies t answered t') (h' : Replies t' [] t'') :
    Replies t answered t'' := by
  have hboth := h.trans h'
  rw [append_nil] at hboth
  exact hboth

theorem Replies.same {t t' : Ticker} (hs : t'.sent = t.sent) (hv : t'.view = t.view) :
    Replies t [] t' :=
  ⟨⟨[], by rw [hs, append_nil], rfl⟩, by simp, hv⟩

theorem Replies.acks {t t' : Ticker} (h : Replies t answered t') :
    t'.acks = t.acks ++ answered.map Prod.snd := by
  obtain ⟨fresh, hsent, hacks⟩ := h.sent
  rw [Ticker.acks, hsent, filterMap_append, hacks]
  rfl

theorem Replies.sequences {t t' : Ticker} (h : Replies t answered t') :
    (answered.map Prod.snd).map ControlAck.sequence =
      (answered.map Prod.fst).map ControlMessage.sequence := by
  rw [map_map, map_map]
  apply map_congr_left
  intro p hp
  exact (h.fits p hp).1

/-- The messages of a look that a worker comes to handle. -/
def Ticker.handles (w : Services) (t : Ticker) (nowNs : Int) :
    List ControlMessage → List ControlMessage
  | [] => []
  | message :: rest =>
    message :: match (t.handle w message nowNs).step with
      | .ok .kContinue => (t.handle w message nowNs).ticker.handles w nowNs rest
      | _ => []

def Ticker.handledOnce (w : Services) (t : Ticker) (e : TickWorld) : List ControlMessage :=
  match e.now, e.published, e.gone, e.looked with
  | .ok (nowNs, elapsedNs), .ok (), none, .ok look =>
    if w.pacing.durationNs ≤ elapsedNs then []
    else (t.beat elapsedNs).handles w nowNs look.messages
  | _, _, _, _ => []

/-- What is handled of some messages: they in order, up to the first Stop. -/
structure UpToStop (handled messages : List ControlMessage) (step : TickStep) : Prop where
  front : handled <+: messages
  stopLast : ∀ m ∈ handled.dropLast, m.command ≠ .stop
  all : step = .kContinue → handled = messages ∧ ∀ m ∈ handled, m.command ≠ .stop

section

variable {handled messages : List ControlMessage} {step : TickStep}
  (h : UpToStop handled messages step)
include h

theorem UpToStop.cons {message : ControlMessage} (hm : message.command ≠ .stop) :
    UpToStop (message :: handled) (message :: messages) step := by
  refine ⟨cons_prefix_cons.mpr ⟨rfl, h.front⟩, ?_, ?_⟩
  · intro m hmem
    cases handled with
    | nil => cases hmem
    | cons next more =>
      rw [dropLast_cons_cons] at hmem
      rcases mem_cons.mp hmem with rfl | hmore
      · exact hm
      · exact h.stopLast m hmore
  · intro hstep
    obtain ⟨heq, hnone⟩ := h.all hstep
    refine ⟨by rw [heq], ?_⟩
    intro m hmem
    rcases mem_cons.mp hmem with rfl | hmore
    · exact hm
    · exact hnone m hmore

/-- Behind messages without a Stop, a Stop is still only the last one handled. -/
theorem UpToStop.stopLast_append {before : List ControlMessage} (hb : ∀ m ∈ before, m.command ≠ .stop) :
    ∀ m ∈ (before ++ handled).dropLast, m.command ≠ .stop := by
  intro m hm
  rcases eq_nil_or_concat handled with hnil | ⟨front, last, hlast⟩
  · rw [hnil, append_nil] at hm
    exact hb m (dropLast_subset _ hm)
  · have hall := h.stopLast
    rw [hlast, concat_eq_append, dropLast_concat] at hall
    rw [hlast, concat_eq_append, ← append_assoc, dropLast_concat] at hm
    rcases mem_append.mp hm with hold | hnew
    · exact hb m hold
    · exact hall m hnew

end

theorem UpToStop.goOn {handled messages : List ControlMessage}
    (h : UpToStop handled messages .kContinue) (step : TickStep) : UpToStop handled messages step :=
  ⟨h.front, h.stopLast, fun _ => h.all rfl⟩

/-- What was handled was answered, and it goes on only while the control pipe is there. -/
structure Answers (t : Ticker) (turn : Turn) (handled : List ControlMessage) (look : ControlLook)
    (answered : List (ControlMessage × ControlAck)) (step : TickStep) : Prop where
  survived : turn.step = .ok step
  replies : Replies t answered turn.ticker
  messages : answered.map Prod.fst = handled
  upTo : UpToStop handled look.messages step
  unlost : step = .kContinue → look.lost = none

theorem Answers.unheard {t : Ticker} {turn : Turn} {step : TickStep} (look : ControlLook)
    (hstep : turn.step = .ok step) (hne : step ≠ .kContinue) (hquiet : Replies t [] turn.ticker) :
    Answers t turn [] look [] step := by
  refine ⟨hstep, hquiet, rfl, ⟨ nil_prefix, ?_, ?_⟩, ?_⟩
  · intro m hm
    cases hm
  · intro hcontinue
    exact absurd hcontinue hne
  · intro hcontinue
    exact absurd hcontinue hne

section Pipe

variable (w : Services) (hw : ∀ count, w.delivery count = .taken)

include hw

variable (t : Ticker)

omit hw in
theorem told_quiet (frames : List Sent) (hf : ∀ frame ∈ frames, ackOf frame = none) :
    Replies t [] (t.told frames) :=
  ⟨⟨frames, rfl, filterMap_eq_nil_iff.mpr hf⟩, by simp, rfl⟩

omit hw in
theorem report_quiet (records : List ErrorRecord) (total : Tally) :
    Replies t [] (t.told (records.map .record ++ [.tally total])) := by
  apply told_quiet
  simp [or_imp, forall_and, ackOf]

theorem tellMemory_quiet : ∃ t', t.tellMemory w = .goOn t' ∧ Replies t [] t' :=
  ⟨_, send_taken hw t _, told_quiet t [_] (by simp [ackOf])⟩

theorem reply_replies (t obeyed : Ticker) (message : ControlMessage) (status : AckStatus)
    (detail : String) (hs : obeyed.sent = t.sent)
    (hv : ∀ ack : ControlAck, ack.status = status → obeyed.view = obey t.view message ack) :
    ∃ ack t', obeyed.reply w message.sequence status detail = .goOn t' ∧
      Replies t [(message, ack)] t' := by
  let ack : ControlAck := ⟨message.sequence, status, (bytesOf detail).take kMaxTextBytes⟩
  refine ⟨ack, _, send_taken hw obeyed _, ⟨[.ack ack], ?_, rfl⟩, ?_, ?_⟩
  · rw [← hs]
    rfl
  · intro p hp
    rw [mem_singleton.mp hp]
    exact ⟨rfl, length_take_le _ _⟩
  · exact hv _ rfl

theorem closeRunner_quiet (runOver : Bool) :
    Replies t [] (t.closeRunner w runOver).ticker ∧
      ((t.closeRunner w runOver).step = .ok .kContinue ∨
        ∃ e, (t.closeRunner w runOver).step = .error e) := by
  cases hfinished : t.runner.finished with
  | true =>
    rw [Ticker.closeRunner, finish, hfinished]
    exact ⟨.same rfl rfl, Or.inr ⟨_, rfl⟩⟩
  | false =>
    have hclosed : Replies t [] (t.closed { t.runner with finished := true } t.runner.nextIndex) :=
      .same rfl rfl
    rw [closeRunner_taken hw t hfinished]
    exact ⟨hclosed.trans (report_quiet _ _ _), Or.inl rfl⟩

theorem installed_replies (runner : IntegrityRunner) (args : WorkloadArgs) (cpus : List UInt32)
    (message : ControlMessage) (status : AckStatus) (detail : String)
    (hm : ∀ view ack, obey view message ack = view) :
    ∃ ack t', (((t.prepared.install runner args cpus).tellMemory w).andThen fun t =>
        t.reply w message.sequence status detail) = .goOn t' ∧ Replies t [(message, ack)] t' := by
  have hinstalled : Replies t [] (t.prepared.install runner args cpus) := .same rfl rfl
  obtain ⟨told, htold, hquiet⟩ := tellMemory_quiet w hw (t.prepared.install runner args cpus)
  obtain ⟨ack, t', hreply, hreplies⟩ := reply_replies w hw told told message status detail rfl
    fun ack _ => (hm _ ack).symm
  refine ⟨ack, t', ?_, (hinstalled.trans hquiet).trans hreplies⟩
  rw [htold]
  exact hreply

theorem restore_replies (message : ControlMessage) (next : WorkloadArgs) (refusal : String)
    (hm : ∀ view ack, obey view message ack = view)
    (hlives : ∀ e, (t.restore w message.sequence next refusal).step ≠ .error e) :
    ∃ ack t', t.restore w message.sequence next refusal = .goOn t' ∧
      Replies t [(message, ack)] t' := by
  rw [Ticker.restore] at hlives ⊢
  cases hmade : prepare (w.made t.prepares) t.args t.cpus t.nextIndex with
  | error e =>
    rw [hmade] at hlives
    exact absurd rfl (hlives _)
  | ok runner => exact installed_replies w hw t runner t.args t.cpus message _ _ hm

theorem reconfigure_replies (message : ControlMessage) (next : WorkloadArgs) (cpus : List UInt32)
    (hm : ∀ view ack, obey view message ack = view)
    (hlives : ∀ e, (t.reconfigure w message.sequence next cpus).step ≠ .error e) :
    ∃ ack t', t.reconfigure w message.sequence next cpus = .goOn t' ∧
      Replies t [(message, ack)] t' := by
  obtain ⟨hquiet, hstep⟩ := closeRunner_quiet w hw t false
  rw [Ticker.reconfigure, Turn.andThen] at hlives ⊢
  rcases hstep with hgoes | ⟨e, hfails⟩
  · simp only [hgoes] at hlives ⊢
    cases hmade : prepare (w.made (t.closeRunner w false).ticker.prepares) next cpus
        (t.closeRunner w false).ticker.nextIndex with
    | ok runner =>
      obtain ⟨ack, t', heq, hreplies⟩ := installed_replies w hw (t.closeRunner w false).ticker
        runner next cpus message .kDone "" hm
      exact ⟨ack, t', heq, hquiet.trans hreplies⟩
    | error e =>
      rw [hmade] at hlives
      have hprepared : Replies (t.closeRunner w false).ticker []
          (t.closeRunner w false).ticker.prepared := .same rfl rfl
      obtain ⟨ack, t', heq, hreplies⟩ := restore_replies w hw
        (t.closeRunner w false).ticker.prepared message next e.describe hm hlives
      exact ⟨ack, t', heq, (hquiet.trans hprepared).trans hreplies⟩
  · simp only [hfails] at hlives
    exact absurd rfl (hlives e)

/-- A message that a worker survives is answered, once, and only a Stop ends the run. -/
theorem handle_replies (message : ControlMessage) (nowNs : Int)
    (hlives : ∀ e, (t.handle w message nowNs).step ≠ .error e) :
    ∃ ack t', Replies t [(message, ack)] t' ∧ t.handle w message nowNs =
      ⟨t', .ok (if message.command = .stop then .kEnd else .kContinue)⟩ := by
  obtain ⟨sequence, command⟩ := message
  cases command with
  | stop =>
    obtain ⟨ack, t', hreply, hreplies⟩ := reply_replies w hw t t ⟨sequence, .stop⟩ .kDone "" rfl
      fun ack hack => by rw [obey, hack]
    have hended : Replies t' [] (t'.ends .kStopRequested).ticker := .same rfl rfl
    refine ⟨ack, _, hreplies.trans hended, ?_⟩
    simp only [Ticker.handle, hreply, Turn.andThen, Turn.goOn]
    rfl
  | pause =>
    obtain ⟨ack, t', hreply, hreplies⟩ := reply_replies w hw t (t.setPaused true)
      ⟨sequence, .pause⟩ .kDone "" rfl fun ack hack => by
        rw [obey, hack]
        rfl
    exact ⟨ack, t', hreplies, hreply⟩
  | resume =>
    obtain ⟨ack, t', hreply, hreplies⟩ := reply_replies w hw t (t.setPaused false)
      ⟨sequence, .resume⟩ .kDone "" rfl fun ack hack => by
        rw [obey, hack]
        rfl
    exact ⟨ack, t', hreplies, hreply⟩
  | setDuty duty =>
    obtain ⟨ack, t', hreply, hreplies⟩ := reply_replies w hw t (t.setDuty duty nowNs)
      ⟨sequence, .setDuty duty⟩ .kDone "" rfl fun ack hack => by
        rw [obey, hack]
        rfl
    exact ⟨ack, t', hreplies, hreply⟩
  | rebind cpus =>
    have hm : ∀ (view : View) (ack : ControlAck), obey view ⟨sequence, .rebind cpus⟩ ack = view := by
      intro view ack
      cases hstatus : ack.status <;> simp only [obey, hstatus]
    obtain ⟨ack, t', heq, hreplies⟩ := reconfigure_replies w hw t ⟨sequence, .rebind cpus⟩ _ _ hm hlives
    exact ⟨ack, t', hreplies, heq⟩
  | switch change =>
    have hm : ∀ (view : View) (ack : ControlAck),
        obey view ⟨sequence, .switch change⟩ ack = view := by
      intro view ack
      cases hstatus : ack.status <;> simp only [obey, hstatus]
    simp only [Ticker.handle] at hlives ⊢
    cases hdescribed : w.descriptor change.workload with
    | error e =>
      obtain ⟨ack, t', hreply, hreplies⟩ := reply_replies w hw t t ⟨sequence, .switch change⟩
        .kRefused (e.fault.describe ++ ": " ++ e.detail) rfl fun ack _ => (hm _ ack).symm
      exact ⟨ack, t', hreplies, hreply⟩
    | ok described =>
      rw [hdescribed] at hlives
      obtain ⟨ack, t', heq, hreplies⟩ := reconfigure_replies w hw t ⟨sequence, .switch change⟩
        (switchedArgs w t.args change described) t.cpus hm hlives
      exact ⟨ack, t', hreplies, heq⟩

theorem handleAll_replies (nowNs : Int) (messages : List ControlMessage)
    (hlives : ∀ e, (t.handleAll w nowNs messages).step ≠ .error e) :
    ∃ answered t' step, t.handleAll w nowNs messages = ⟨t', .ok step⟩ ∧ Replies t answered t' ∧
      answered.map Prod.fst = t.handles w nowNs messages ∧
      UpToStop (t.handles w nowNs messages) messages step := by
  induction messages generalizing t with
  | nil =>
    refine ⟨[], t, .kContinue, rfl, .same rfl rfl, rfl, prefix_rfl, ?_, ?_⟩
    · intro m hm
      cases hm
    · intro _
      refine ⟨rfl, ?_⟩
      intro m hm
      cases hm
  | cons message rest ih =>
    have hfirst : ∀ e, (t.handle w message nowNs).step ≠ .error e := by
      intro e hfails
      apply hlives e
      rw [Ticker.handleAll, Turn.andThen, hfails]
      exact hfails
    obtain ⟨ack, t', hreplies, hhandle⟩ := handle_replies w hw t message nowNs hfirst
    rw [Ticker.handleAll, Turn.andThen, hhandle] at hlives
    rw [Ticker.handleAll, Turn.andThen, Ticker.handles, hhandle]
    by_cases hstop : message.command = .stop
    · simp only [if_pos hstop] at hlives ⊢
      refine ⟨[(message, ack)], t', .kEnd, rfl, hreplies, rfl, ?_, ?_, ?_⟩
      · exact cons_prefix_cons.mpr ⟨rfl, nil_prefix⟩
      · intro m hm
        cases hm
      · intro hstep
        cases hstep
    · simp only [if_neg hstop] at hlives ⊢
      obtain ⟨answered, t'', step, hrest, hmore, hmap, hupto⟩ := ih t' hlives
      refine ⟨(message, ack) :: answered, t'', step, hrest, hreplies.trans hmore, ?_, hupto.cons hstop⟩
      rw [map_cons, hmap]

theorem slice_quiet (nowNs busyRemainingNs : Int) (e : TickWorld) :
    Replies t [] (t.slice w nowNs busyRemainingNs e).ticker := by
  rw [Ticker.slice]
  cases hreport : (runSlice t.runner t.units e.slice).report with
  | error stopped => exact .same rfl rfl
  | ok report =>
    have hstarted : Replies t []
        { t.ran (runSlice t.runner t.units e.slice) with nextIndex := report.nextIndex } :=
      .same rfl rfl
    have hsliced := hstarted.trans (report_quiet _ report.records (Ticker.whole
      { t.ran (runSlice t.runner t.units e.slice) with nextIndex := report.nextIndex }))
    simp only [Ticker.sendReport, sendAll_taken hw]
    cases e.after with
    | error detail => exact hsliced
    | ok afterNs => exact hsliced.trans (.same rfl rfl)

theorem listen_replies (nowNs : Int) (e : TickWorld) (look : ControlLook) (he : e.looked = .ok look)
    (hlives : ∀ error, (t.listen w nowNs e).step ≠ .error error) :
    ∃ answered step, Answers t (t.listen w nowNs e) (t.handles w nowNs look.messages) look answered
      step := by
  simp only [Ticker.listen, he] at hlives ⊢
  have hfirst : ∀ error, (t.handleAll w nowNs look.messages).step ≠ .error error := by
    intro error hfails
    apply hlives error
    rw [Turn.andThen, hfails]
    exact hfails
  obtain ⟨answered, t', step, hall, hreplies, hmap, hupto⟩ :=
    handleAll_replies w hw t nowNs look.messages hfirst
  rw [hall, Turn.andThen] at hlives ⊢
  cases step with
  | kEnd => exact ⟨answered, .kEnd, rfl, hreplies, hmap, hupto, fun h => by cases h⟩
  | kLeave => exact ⟨answered, .kLeave, rfl, hreplies, hmap, hupto, fun h => by cases h⟩
  | kContinue =>
    simp only at hlives ⊢
    cases hlost : look.lost with
    | some reason =>
      have hleft : Replies t' [] (t'.leave reason).ticker := .same rfl rfl
      exact ⟨answered, .kLeave, rfl, hreplies.quiet hleft, hmap, hupto.goOn _, fun h => by cases h⟩
    | none =>
      rw [hlost] at hlives
      simp only at hlives ⊢
      split_ifs at hlives ⊢ with hidle
      · exact ⟨answered, .kContinue, rfl, hreplies, hmap, hupto, fun _ => hlost⟩
      · have hsliced := slice_quiet w hw t' nowNs (t.duty.position nowNs).remainingNs e
        cases hslice : (t'.slice w nowNs (t.duty.position nowNs).remainingNs e).step with
        | error error => exact absurd hslice (hlives error)
        | ok step =>
          exact ⟨answered, step, hslice, hreplies.quiet hsliced, hmap, hupto.goOn step, fun _ => hlost⟩

theorem once_replies (e : TickWorld) (look : ControlLook) (he : e.looked = .ok look)
    (hlives : ∀ error, (t.once w e).step ≠ .error error) :
    ∃ answered step, Answers t (t.once w e) (t.handledOnce w e) look answered step := by
  rw [Ticker.once] at hlives ⊢
  cases hnow : e.now with
  | error detail =>
    rw [hnow] at hlives
    exact absurd rfl (hlives _)
  | ok now =>
    obtain ⟨nowNs, elapsedNs⟩ := now
    rw [hnow] at hlives
    simp only at hlives ⊢
    have hbeat : Replies t [] (t.beat elapsedNs) := .same rfl rfl
    cases hpublished : e.published with
    | error detail =>
      rw [hpublished] at hlives
      exact absurd rfl (hlives _)
    | ok published =>
      rw [hpublished] at hlives
      simp only at hlives ⊢
      split_ifs at hlives ⊢ with hduration
      · have hnone : t.handledOnce w e = [] := by
          simp only [Ticker.handledOnce, hnow, hpublished, he]
          cases e.gone with
          | none => simp only [if_pos hduration]
          | some reason => rfl
        rw [hnone]
        exact ⟨[], .kEnd, .unheard look rfl (by decide) (hbeat.quiet (.same rfl rfl))⟩
      · cases hgone : e.gone with
        | some reason =>
          have hnone : t.handledOnce w e = [] := by
            simp only [Ticker.handledOnce, hnow, hpublished, hgone]
          rw [hnone]
          exact ⟨[], .kLeave, .unheard look rfl (by decide) (hbeat.quiet (.same rfl rfl))⟩
        | none =>
          rw [hgone] at hlives
          have hhandled : t.handledOnce w e = (t.beat elapsedNs).handles w nowNs look.messages := by
            simp only [Ticker.handledOnce, hnow, hpublished, hgone, he, if_neg hduration]
          obtain ⟨answered, step, hturn⟩ :=
            listen_replies w hw (t.beat elapsedNs) nowNs e look he hlives
          rw [hhandled]
          exact ⟨answered, step, hturn.survived, hbeat.trans hturn.replies, hturn.messages, hturn.upTo,
            hturn.unlost⟩

theorem settle_replies (turn : Turn) (answered : List (ControlMessage × ControlAck))
    (h : Replies t answered turn.ticker) : Replies t answered (settle w turn).ticker := by
  rw [settle]
  cases turn.step with
  | error e => exact h
  | ok step =>
    cases step with
    | kContinue => exact h
    | kLeave => exact h
    | kEnd =>
      have hlast := (closeRunner_quiet w hw turn.ticker true).1
      have hboth := h.quiet hlast
      show Replies t answered (turn.ticker.conclude w).1
      rw [Ticker.conclude]
      cases (turn.ticker.closeRunner w true).step with
      | error e => exact hboth
      | ok step => exact hboth

end Pipe

end LoadForge.Worker
