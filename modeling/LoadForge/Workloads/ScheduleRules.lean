import LoadForge.Framework.Fallible
import LoadForge.Framework.Numerals
import LoadForge.Framework.Parsing
import LoadForge.Workloads.Schedule

namespace LoadForge.Mixed

open Framework Worker Workloads List

section Labels

def Ascii (text : String) : Prop := ∀ c ∈ text.toList, c.toNat < 128

instance (text : String) : Decidable (Ascii text) :=
  List.decidableBAll (fun c : Char => c.toNat < 128) text.toList

theorem Ascii.append {text other : String} (h : Ascii text) (h' : Ascii other) :
    Ascii (text ++ other) := by
  intro c hc
  rw [String.toList_append, mem_append] at hc
  exact hc.elim (h c) (h' c)

theorem ascii_digits (n : Nat) : Ascii (toString n) := by
  intro c hc
  rw [Nat.toString_eq_repr, Nat.toList_repr] at hc
  have hrange := isDigit_range (Nat.isDigit_of_mem_toDigits (by decide) (by decide) hc)
  omega

theorem ascii_name {name : String} (h : isValidName name = true) : Ascii name := by
  intro c hc
  have hchar : isNameChar c = true := by
    unfold isValidName at h
    cases hname : name.toList with
    | nil =>
      rw [hname] at hc
      cases hc
    | cons first rest =>
      rw [hname] at h hc
      exact all_eq_true.mp (Bool.and_eq_true_iff.mp h).2 c hc
  simp only [isNameChar, Bool.or_eq_true, Bool.and_eq_true, decide_eq_true_eq, beq_iff_eq] at hchar
  obtain (⟨-, hhigh⟩ | ⟨-, hhigh⟩) | rfl := hchar
  · have hle : c.toNat ≤ 'z'.toNat := hhigh
    exact Nat.lt_of_le_of_lt hle (by decide)
  · have hle : c.toNat ≤ '9'.toNat := hhigh
    exact Nat.lt_of_le_of_lt hle (by decide)
  · decide

theorem labelTooLong_eq_false {label : String} (h : Ascii label)
    (hlength : label.toList.length ≤ kMaxLabelBytes) : labelTooLong label = false := by
  rw [labelTooLong, length_bytesOf label h]
  exact decide_eq_false (Nat.not_lt_of_le hlength)

theorem labelTooLong_bounded {label : String} (h : Ascii label) :
    labelTooLong (bounded label) = false := by
  apply labelTooLong_eq_false
  · intro c hc
    rw [bounded, String.toList_ofList] at hc
    exact h c (mem_of_mem_take hc)
  · rw [bounded, String.toList_ofList]
    exact length_take_le _ _

/-- A label that begins with a number: what kind it is of, the number, and what it is about. -/
def numbered (letter : String) (n : Nat) (name : String) : String :=
  bounded (letter ++ toString n ++ " " ++ name)

/-- The label has this number, and nothing of it is cut. -/
def IsNumbered (letter : String) (n : Nat) (label : String) : Prop :=
  ∃ name, label = numbered letter n name ∧ Ascii name ∧
    letter.toList.length + (Nat.toDigits 10 n).length + 1 + name.toList.length ≤ kMaxLabelBytes

section

variable {letter label : String} {n : Nat}

theorem IsNumbered.short (h : IsNumbered letter n label)
    (hletter : Ascii letter) : labelTooLong label = false := by
  obtain ⟨name, rfl, hname, -⟩ := h
  have hspace : Ascii " " := by decide
  exact labelTooLong_bounded (((hletter.append (ascii_digits n)).append hspace).append hname)

theorem IsNumbered.toList_eq (h : IsNumbered letter n label) :
    ∃ name, label.toList = letter.toList ++ (Nat.toDigits 10 n ++ ' ' :: name) := by
  obtain ⟨name, rfl, -, hlength⟩ := h
  have hchars : (letter ++ toString n ++ " " ++ name).toList =
      letter.toList ++ (Nat.toDigits 10 n ++ ' ' :: name.toList) := by
    rw [String.toList_append, String.toList_append, String.toList_append, Nat.toString_eq_repr,
      Nat.toList_repr, append_assoc, append_assoc]
    rfl
  refine ⟨name.toList, ?_⟩
  rw [numbered, bounded, String.toList_ofList, hchars, take_of_length_le]
  simp
  omega

theorem IsNumbered.inj {n' : Nat} (h : IsNumbered letter n label)
    (h' : IsNumbered letter n' label) : n = n' := by
  obtain ⟨name, hchars⟩ := h.toList_eq
  obtain ⟨name', hchars'⟩ := h'.toList_eq
  rw [hchars] at hchars'
  have hdigits (n : Nat) : ∀ c ∈ Nat.toDigits 10 n, c.isDigit = true := by
    intro c hc
    exact Nat.isDigit_of_mem_toDigits (by decide) (by decide) hc
  obtain ⟨hfront, -⟩ := front_inj (hdigits n) (hdigits n') (fun c hc => by cases hc; rfl)
    (fun c hc => by cases hc; rfl) (append_cancel_left hchars')
  calc
    n = Nat.ofDigitChars 10 (Nat.toDigits 10 n) 0 := Nat.ofDigitChars_ten_toDigits.symm
    _ = Nat.ofDigitChars 10 (Nat.toDigits 10 n') 0 := by rw [hfront]
    _ = n' := Nat.ofDigitChars_ten_toDigits

end

theorem nodup_of_numbered {letter : String} {numbers : List Nat} {labels : List String}
    (h : Forall₂ (IsNumbered letter) numbers labels) (hnumbers : numbers.Nodup) :
    labels.Nodup := by
  induction h with
  | nil => exact nodup_nil
  | @cons n label numbers labels hlabel hlabels ih =>
    obtain ⟨hfresh, hrest⟩ := nodup_cons.mp hnumbers
    refine nodup_cons.mpr ⟨?_, ih hrest⟩
    intro hmem
    obtain ⟨n', hn', hsame⟩ := forall₂_mem hlabels hmem
    exact hfresh (hlabel.inj hsame ▸ hn')

end Labels

/-- Pieces that are not longer than a bound make no more than as many of it. -/
theorem length_flatMap_le {α β : Type} {f : α → List β} {xs : List α} {n : Nat}
    (h : ∀ x ∈ xs, (f x).length ≤ n) : (xs.flatMap f).length ≤ xs.length * n := by
  induction xs with
  | nil => exact Nat.zero_le _
  | cons x xs ih =>
    obtain ⟨hx, hxs⟩ := forall_mem_cons.mp h
    rw [flatMap_cons, length_append, length_cons, Nat.succ_mul, Nat.add_comm]
    exact Nat.add_le_add (ih hxs) hx

section Rules

structure StepRules (workers : Nat) (step : Step) : Prop where
  labels : labelTooLong step.phase = false ∧ labelTooLong step.workload = false
  slots : ∀ each ∈ step.workers, each.slot < workers
  commands : ∀ each ∈ step.workers, ∀ command ∈ each.commands, isValid command = true

structure Rules (schedule : Schedule) (workers : Nat) : Prop where
  workers_eq : schedule.workers = workers
  start_each : schedule.start = [] ∨ schedule.start.length = workers
  start_valid : ∀ start ∈ schedule.start,
    isValidName start.workload = true ∧ start.footprintBytes ≠ 0
  labels : labelTooLong schedule.phase = false ∧ labelTooLong schedule.workload = false
  phases : (schedule.steps.map Step.phase).Nodup
  times : ((0 : Int) :: schedule.steps.map Step.atNs).Pairwise (· ≤ ·)
  steps : ∀ step ∈ schedule.steps, StepRules workers step

theorem commandsProblem_eq_none {workers : Nat} {step : Step} (h : StepRules workers step) :
    commandsProblem step workers = none := by
  apply findSome?_eq_none_iff.mpr
  intro each heach
  have hvalid : each.commands.find? (fun command => !isValid command) = none := by
    apply find?_eq_none.mpr
    intro command hcommand
    rw [h.commands each heach command hcommand]
    exact Bool.false_ne_true
  rw [workerCommandsProblem, if_neg (Nat.not_le_of_lt (h.slots each heach)), hvalid,
    Option.map_none]

theorem stepsProblem_eq_none {workers : Nat} {seen : List String} {before : Int}
    {steps : List Step} (hphases : (steps.map Step.phase).Nodup)
    (hseen : ∀ step ∈ steps, step.phase ∉ seen)
    (htimes : (before :: steps.map Step.atNs).Pairwise (· ≤ ·))
    (hsteps : ∀ step ∈ steps, StepRules workers step) :
    stepsProblem workers seen before steps = none := by
  induction steps generalizing seen before with
  | nil => rfl
  | cons step rest ih =>
    obtain ⟨hstep, hrest⟩ := forall_mem_cons.mp hsteps
    obtain ⟨hfresh, hseen⟩ := forall_mem_cons.mp hseen
    obtain ⟨hphase, hphases⟩ := nodup_cons.mp hphases
    obtain ⟨hbefore, htimes⟩ := pairwise_cons.mp htimes
    have hlater : ¬ step.atNs < before := Int.not_lt.mpr (hbefore step.atNs mem_cons_self)
    have hlabels : ¬ (labelTooLong step.phase || labelTooLong step.workload) = true := by
      rw [hstep.labels.1, hstep.labels.2]
      exact Bool.false_ne_true
    rw [stepsProblem, if_neg hfresh, if_neg hlater, if_neg hlabels, commandsProblem_eq_none hstep]
    apply ih hphases _ htimes hrest
    intro other hother hmem
    obtain hsame | hmem := mem_cons.mp hmem
    · exact hphase (hsame ▸ mem_map_of_mem hother)
    · exact hseen other hother hmem

theorem problem_eq_none {schedule : Schedule} {workers : Nat} (h : Rules schedule workers) :
    problem schedule workers = none := by
  have hstart : ¬ (schedule.start ≠ [] ∧ schedule.start.length ≠ workers) := by
    intro hsome
    exact h.start_each.elim hsome.1 hsome.2
  have hlabels : ¬ (labelTooLong schedule.phase || labelTooLong schedule.workload) = true := by
    rw [h.labels.1, h.labels.2]
    exact Bool.false_ne_true
  have hstarts : startProblem schedule = none := by
    rw [startProblem, Option.map_eq_none_iff]
    apply find?_eq_none.mpr
    intro entry hentry
    obtain ⟨hname, hfootprint⟩ := h.start_valid entry.1 (fst_mem_of_mem_zipIdx hentry)
    simp [hname, hfootprint]
  rw [problem, if_neg (not_not_intro h.workers_eq), if_neg hstart, if_neg hlabels, hstarts]
  exact stepsProblem_eq_none h.phases (fun _ _ => not_mem_nil) h.times h.steps

end Rules

end LoadForge.Mixed
