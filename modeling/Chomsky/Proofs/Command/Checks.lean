import Chomsky.Command.Transcript
import Chomsky.Proofs.Membership.Earley
import Chomsky.Proofs.Membership.Words
import Chomsky.Proofs.Normal.Language
import Chomsky.Proofs.Normal.Violation
import Chomsky.Proofs.Sampling.Sentence

/-!
# The checks of a run

A run checks its own result in three ways: it looks for violations of the normal form,
it samples sentences of the input grammar and has the normal form recognize them, and it
compares both grammars on all short words. Each check succeeds under an exact condition,
and so does a run as a whole.

The language of the normal form is that of the input grammar. Sentences are words that
the start symbol derives, and so is what the test on items looks for. The two differ at
most in the empty word, and not even there when the input grammar has no flag for it.
So all checks succeed, and a run fails only when normalization does.

## What this module delivers

- `checkSamples_success_iff`, `compareLanguages_success_iff` and
  `Options.perform_success_iff`: when a check succeeds, and when a run does.
- `PassesChecks`, that no check can fail, and `passesChecks_of_normalize`.
- `checks_raise_no_alarm`: with the exit code of the program.
-/

set_option autoImplicit false

namespace Chomsky

/-! ## Parts of a run -/

namespace Outcome

theorem andThen_success_iff {first second : Outcome} :
    (first.andThen second).success = true ↔ first.success = true ∧ second.success = true :=
  Bool.and_eq_true_iff

theorem success_print_andThen (text : String) (second : Outcome) :
    ((print text).andThen second).success = second.success :=
  Bool.true_and _

/-- A part of a run that is left out does not fail. -/
theorem ite_success_iff {c : Prop} [Decidable c] {part : Outcome} :
    (if c then part else nothing).success = true ↔ (c → part.success = true) := by
  by_cases hc : c
  · rw [if_pos hc, forall_prop_of_true hc]
  · rw [if_neg hc]
    exact iff_of_true rfl fun h => absurd h hc

end Outcome

section Success

variable {σ : Type} {chooser : Chooser σ} {g input normalForm : Grammar} {name : String}
  {count amount : Nat} {s : σ} {made : Except SamplingError (List String)}

/-- Each sentence of many is made from some state of the source. -/
theorem Grammar.exists_of_mem_sampleMany (h : made ∈ (g.sampleMany chooser name count s).1) :
    ∃ s', made = (g.sampleFrom chooser name s').1 := by
  induction count generalizing s with
  | zero => exact absurd h List.not_mem_nil
  | succ count ih =>
    rcases List.mem_cons.1 h with rfl | h
    · exact ⟨s, rfl⟩
    · exact ih h

theorem Grammar.length_sampleMany : (g.sampleMany chooser name count s).1.length = count := by
  induction count generalizing s with
  | zero => rfl
  | succ count ih => exact congrArg (· + 1) ih

theorem checkSample_success_iff : (checkSample normalForm made).success = true ↔
    ∃ w, made = .ok w ∧ normalForm.acceptsBySpans w = true := by
  cases made with
  | error cause => exact iff_of_false Bool.false_ne_true fun ⟨_, h, _⟩ => nomatch h
  | ok w =>
    constructor
    · intro h
      exact ⟨w, rfl, h⟩
    · rintro ⟨_, heq, h⟩
      obtain rfl := Except.ok.inj heq
      exact h

/-- The check of the samples succeeds exactly if each of them is a sentence that the
normal form accepts. -/
theorem checkSamples_success_iff :
    (checkSamples chooser input normalForm amount s).success = true ↔
      ∀ made ∈ (input.sampleMany chooser input.start amount s).1,
        ∃ w, made = .ok w ∧ normalForm.acceptsBySpans w = true := by
  rw [checkSamples]
  -- the answers are the same in the check and in what is said of them
  induction (input.sampleMany chooser input.start amount s).1 with
  | nil => exact iff_of_true rfl fun _ hmade => absurd hmade List.not_mem_nil
  | cons made rest ih =>
    rw [List.foldr_cons, Outcome.andThen_success_iff, List.forall_mem_cons,
      checkSample_success_iff, ih]

/-- The comparison succeeds exactly if it finds no word on which the grammars differ. -/
theorem compareLanguages_success_iff {maxLength : Nat} :
    (compareLanguages input normalForm maxLength).success = true ↔
      disagreement? input normalForm maxLength = none := by
  rw [compareLanguages]
  cases disagreement? input normalForm maxLength with
  | none => exact iff_of_true rfl rfl
  | some verdicts => exact iff_of_false Bool.false_ne_true (Option.some_ne_none verdicts)

/-! ## A whole run -/

namespace Options

variable {o : Options}

/-- The checks that were asked for have to succeed, and no others. -/
theorem check_success_iff : (o.check chooser s input normalForm).success = true ↔
    (0 < o.samples → (checkSamples chooser input normalForm o.samples s).success = true) ∧
      ∀ maxLength, o.maxLength = some maxLength →
        disagreement? input normalForm maxLength = none := by
  unfold check
  dsimp only
  cases o.maxLength with
  | none =>
    rw [Outcome.ite_success_iff, Outcome.success_print_andThen]
    exact (and_iff_left fun _ h => nomatch h).symm
  | some maxLength =>
    rw [Outcome.andThen_success_iff, Outcome.ite_success_iff, Outcome.success_print_andThen,
      compareLanguages_success_iff]
    simp only [Option.some.injEq, forall_eq']

/-- A run succeeds exactly if normalization does, there is no violation in its result,
and the checks succeed. -/
theorem perform_success_iff : (o.perform chooser s).success = true ↔
    ∃ result, normalize o.settings o.sample.grammar = .ok result ∧
      result.grammar.violations = [] ∧
        (o.check chooser s o.sample.grammar result.grammar).success = true := by
  rw [perform]
  cases normalize o.settings o.sample.grammar with
  | error failures => exact iff_of_false Bool.false_ne_true fun ⟨_, h, _⟩ => nomatch h
  | ok result =>
    simp only [Except.ok.injEq, exists_eq_left']
    cases result.grammar.violations with
    | nil => exact Outcome.andThen_success_iff.trans (and_congr_left' (iff_of_true rfl rfl))
    | cons violation rest =>
      exact iff_of_false Bool.false_ne_true fun h => List.cons_ne_nil _ _ h.1

end Options

end Success

/-! ## Checks that cannot fail -/

/-- No check of a run can fail, whatever is asked for and whatever is drawn. -/
structure PassesChecks (input normalForm : Grammar) : Prop where
  /-- There are no violations of the normal form. -/
  violations_eq_nil : normalForm.violations = []
  /-- The check of any number of samples succeeds. -/
  samples_success : ∀ {σ : Type} (chooser : Chooser σ) (amount : Nat) (s : σ),
    (checkSamples chooser input normalForm amount s).success = true
  /-- Each of the samples is a sentence that the normal form accepts. -/
  samples_accepted : ∀ {σ : Type} (chooser : Chooser σ) (amount : Nat) (s : σ),
    (input.sampleMany chooser input.start amount s).1.length = amount ∧
      ∀ made ∈ (input.sampleMany chooser input.start amount s).1,
        ∃ w, made = .ok w ∧ normalForm.acceptsBySpans w = true
  /-- The comparison finds no word. -/
  disagreement?_eq_none : ∀ maxLength, disagreement? input normalForm maxLength = none

/-- Without a flag for the empty word, the language is what the start symbol derives. -/
theorem Grammar.accepts_iff_derives {g : Grammar} {w : List String} (h : g.acceptsEmpty = false) :
    g.Accepts w ↔ g.rules.Derives g.start w :=
  or_iff_left fun hempty => Bool.false_ne_true (h.symm.trans hempty.2)

section Normal

variable {settings : Settings} {g : Grammar} {result : Workbench}
  (h : normalize settings g = .ok result)

include h

/-- The recognizer of the result decides the language of the input grammar. -/
theorem acceptsBySpans_of_normalize {w : List String} :
    result.grammar.acceptsBySpans w = true ↔ g.Accepts w := by
  obtain ⟨hg, hdemand, rfl⟩ := normalize_eq_ok h
  rw [(Grammar.inNormalForm_normal hg hdemand).acceptsBySpans_eq_true_iff]
  exact Grammar.accepts_normal_iff hg hdemand

/-- The checks of a result cannot fail if the language of the input grammar is not empty
and is what its start symbol derives. -/
theorem passesChecks_of_normalize (hempty : g.acceptsEmpty = false)
    (hword : ∃ w, g.rules.Derives g.start w) : PassesChecks g result.grammar := by
  have haccepts : ∀ w, result.grammar.acceptsBySpans w = true ↔ g.rules.Derives g.start w :=
    fun w => (acceptsBySpans_of_normalize h).trans (Grammar.accepts_iff_derives hempty)
  have hsamples : ∀ {σ : Type} (chooser : Chooser σ) (amount : Nat) (s : σ),
      ∀ made ∈ (g.sampleMany chooser g.start amount s).1,
        ∃ w, made = .ok w ∧ result.grammar.acceptsBySpans w = true := by
    intro σ chooser amount s made hmade
    obtain ⟨s', rfl⟩ := Grammar.exists_of_mem_sampleMany hmade
    obtain ⟨answer, s'', heq, houtcome, -⟩ := Grammar.samples_sampleFrom g chooser g.start s'
    -- the start symbol derives a word, so sampling ends with one that it derives
    obtain ⟨-, -, hexists, hderives, -⟩ := houtcome.spec
    obtain ⟨w, rfl⟩ := hexists.2 hword
    exact ⟨w, by rw [heq], (haccepts w).2 (hderives w rfl)⟩
  have hviolations : result.grammar.violations = [] := by
    obtain ⟨hg, hdemand, rfl⟩ := normalize_eq_ok h
    exact (Grammar.inNormalForm_normal hg hdemand).violations_eq_nil
  exact {
    violations_eq_nil := hviolations
    samples_success := fun chooser amount s =>
      checkSamples_success_iff.2 (hsamples chooser amount s)
    samples_accepted := fun chooser amount s =>
      ⟨Grammar.length_sampleMany, hsamples chooser amount s⟩
    disagreement?_eq_none := fun maxLength =>
      disagreement?_eq_none_iff.2 fun w _ _ =>
        Bool.eq_iff_iff.2 (chartAccepts_iff_derives.trans (haccepts w).symm) }

end Normal

/-! ## The built-in grammars -/

namespace Sample

theorem acceptsEmpty_grammar (sample : Sample) : sample.grammar.acceptsEmpty = false := by
  cases sample <;> rfl

/-- The start symbol of a built-in grammar has a height, so it derives a word. -/
theorem exists_derives_start (sample : Sample) :
    ∃ w, sample.grammar.rules.Derives sample.grammar.start w := by
  rw [← Rules.exists_get?_heights_iff, ← Option.isSome_iff_exists]
  cases sample <;> decide

end Sample

/-- A run of a built-in grammar succeeds exactly if normalization does. -/
theorem Options.perform_success_iff_normalize (o : Options) {σ : Type} (chooser : Chooser σ)
    (s : σ) : (o.perform chooser s).success = true ↔
      ∃ result, normalize o.settings o.sample.grammar = .ok result := by
  rw [perform_success_iff]
  constructor
  · rintro ⟨result, h, -⟩
    exact ⟨result, h⟩
  · rintro ⟨result, h⟩
    have hpasses := passesChecks_of_normalize h o.sample.acceptsEmpty_grammar
      o.sample.exists_derives_start
    exact ⟨result, h, hpasses.violations_eq_nil, check_success_iff.2
      ⟨fun _ => hpasses.samples_success chooser o.samples s,
        fun maxLength _ => hpasses.disagreement?_eq_none maxLength⟩⟩

theorem Transcript.exitCode_ofOptions_eq_zero_iff {o : Options} {logSpec : String}
    {entropy : UInt64} : (ofOptions o logSpec entropy).exitCode = 0 ↔
      ∃ result, normalize o.settings o.sample.grammar = .ok result := by
  have hperform := o.perform_success_iff_normalize KeyStream.source.chooser
    (KeyStream.ofSeed ((o.seed.map UInt64.ofNat).getD entropy))
  rw [← hperform, ofOptions]
  split
  · exact iff_of_true rfl ‹_›
  · exact iff_of_false Nat.one_ne_zero ‹_›

/-- The checks of a run raise no alarm. If a grammar without a flag for the empty word
derives some word and is normalized, the result has no violations, every sampled sentence
is accepted, and the comparison finds no word. So a run of a built-in grammar succeeds,
and the program ends with exit code zero, if and only if normalization succeeds. -/
theorem checks_raise_no_alarm :
    (∀ (settings : Settings) (g : Grammar) (result : Workbench),
      normalize settings g = .ok result → g.acceptsEmpty = false →
        (∃ w, g.rules.Derives g.start w) → PassesChecks g result.grammar) ∧
    (∀ (o : Options) {σ : Type} (chooser : Chooser σ) (s : σ),
      (o.perform chooser s).success = true ↔
        ∃ result, normalize o.settings o.sample.grammar = .ok result) ∧
    ∀ (arguments : List String) (logSpec : String) (entropy : UInt64) (o : Options),
      Options.ofArguments arguments = .ok o →
        ((Transcript.ofArguments arguments logSpec entropy).exitCode = 0 ↔
          ∃ result, normalize o.settings o.sample.grammar = .ok result) := by
  refine ⟨fun _ _ _ h hempty hword => passesChecks_of_normalize h hempty hword,
    fun o _ chooser s => o.perform_success_iff_normalize chooser s, ?_⟩
  intro arguments logSpec entropy o ho
  rw [Transcript.ofArguments, ho]
  exact Transcript.exitCode_ofOptions_eq_zero_iff

/-- The sample of expressions passes the checks, and so the program ends well on a command
line that asks for samples and for a comparison. -/
theorem checks_raise_no_alarm_arithmetic :
    (∃ result, normalize .standard Sample.arithmetic.grammar = .ok result ∧
      PassesChecks Sample.arithmetic.grammar result.grammar) ∧
    (Transcript.ofArguments ["arithmetic", "--samples", "3", "--max-length", "4"] "" 7).exitCode
      = 0 := by
  obtain ⟨hpasses, -, hexit⟩ := checks_raise_no_alarm
  constructor
  · obtain ⟨result, h⟩ : ∃ result, normalize .standard Sample.arithmetic.grammar = .ok result :=
      ⟨_, rfl⟩
    exact ⟨result, h, hpasses _ _ result h rfl Sample.arithmetic.exists_derives_start⟩
  · have ho : Options.ofArguments ["arithmetic", "--samples", "3", "--max-length", "4"]
        = .ok { Options.standard with
            sample := .arithmetic, samples := 3, maxLength := some 4 } := rfl
    exact (hexit _ "" 7 _ ho).2 ⟨_, rfl⟩

end Chomsky
