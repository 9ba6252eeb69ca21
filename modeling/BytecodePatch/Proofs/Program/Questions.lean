import BytecodePatch.Proofs.Program.Transparency
import Mathlib.Data.List.Basic

/-!
# Questions in any order

Which keys a lookup knows, and how often its counters went up, depends on the questions that
it was asked but not on their order. An inquiry that never looks at the counters asks the same
questions of every lookup of a program, and comes to the same result.
-/

namespace BytecodePatch

namespace Lookup

/-- A lookup after questions, one after another. -/
def askAll (lookup : Lookup) (queries : List Query) : Lookup :=
  queries.foldl (fun lookup query => (lookup.ask query).2) lookup

theorem reaches_askAll (lookup : Lookup) (queries : List Query) :
    lookup.Reaches (lookup.askAll queries) := by
  induction queries generalizing lookup with
  | nil => exact .refl
  | cons query queries inductionHypothesis =>
      exact (Reaches.refl.ask query).trans (inductionHypothesis _)

theorem askAll_append (lookup : Lookup) (earlier later : List Query) :
    lookup.askAll (earlier ++ later) = (lookup.askAll earlier).askAll later :=
  List.foldl_append

/-! ## What a question changes -/

/-- Whether an answer is kept under a key. -/
def knows (lookup : Lookup) (key : Query) : Bool :=
  (lookup.answers.lookup key).isSome

/-- The counters after a question, told whether its key was known. -/
def Counts.after (counts : Counts) (modules : Nat) (known : Bool) : Counts :=
  if known then { counts with hits := counts.hits + 1 }
  else
    { counts with
      misses := counts.misses + 1
      moduleScans := counts.moduleScans + modules }

theorem Counts.after_after (counts : Counts) (modules : Nat) (first second : Bool) :
    (counts.after modules first).after modules second =
      (counts.after modules second).after modules first := by
  cases first <;> cases second <;> rfl

theorem counts_ask (lookup : Lookup) (query : Query) :
    (lookup.ask query).2.counts =
      lookup.counts.after lookup.program.modules.length (lookup.knows query.key) := by
  rcases ask_cases lookup query with ⟨symbol, kept, asked⟩ | ⟨missing, answers, asked, _⟩
  · rw [asked, knows, kept]
    rfl
  · rw [asked, knows, missing]
    rfl

/-- A question makes a lookup know its key if a search finds an answer. -/
theorem knows_ask (lookup : Lookup) (query key : Query) :
    (lookup.ask query).2.knows key = true ↔
      lookup.knows key = true ∨
        key = query.key ∧ ∃ symbol, search lookup.program query = .ok symbol := by
  rcases ask_cases lookup query with
    ⟨symbol, kept, asked⟩ | ⟨_, answers, asked, answersEq⟩
  · rw [asked]
    constructor
    · exact Or.inl
    · intro known
      rcases known with known | ⟨rfl, _⟩
      · exact known
      · simp [knows, kept]
  · simp only [asked, knows, Option.isSome_iff_exists, answersEq, exists_or,
      exists_and_left]

/-! ## Questions commute -/

/-- Two lookups of one program that know the same keys and have the same counters. -/
structure Alike (first second : Lookup) : Prop where
  program_eq : first.program = second.program
  counts_eq : first.counts = second.counts
  knows_iff : ∀ key, first.knows key = true ↔ second.knows key = true

namespace Alike

variable {first second third : Lookup}

theorem refl (lookup : Lookup) : lookup.Alike lookup :=
  ⟨rfl, rfl, fun _ => Iff.rfl⟩

theorem trans (left : first.Alike second) (right : second.Alike third) : first.Alike third where
  program_eq := left.program_eq.trans right.program_eq
  counts_eq := left.counts_eq.trans right.counts_eq
  knows_iff key := (left.knows_iff key).trans (right.knows_iff key)

theorem ask (alike : first.Alike second) (query : Query) :
    (first.ask query).2.Alike (second.ask query).2 where
  program_eq := by
    rw [program_ask, program_ask, alike.program_eq]
  counts_eq := by
    have known : first.knows query.key = second.knows query.key :=
      Bool.eq_iff_iff.mpr (alike.knows_iff query.key)
    rw [counts_ask, counts_ask, alike.program_eq, alike.counts_eq, known]
  knows_iff key := by
    rw [knows_ask, knows_ask, alike.knows_iff key, alike.program_eq]

theorem askAll (alike : first.Alike second) (queries : List Query) :
    (first.askAll queries).Alike (second.askAll queries) := by
  induction queries generalizing first second with
  | nil => exact alike
  | cons query queries inductionHypothesis => exact inductionHypothesis (alike.ask query)

/-- Two questions may change places. Under one key both find the same, and the second of them
is known exactly if the first is or finds an answer. -/
theorem swap (lookup : Lookup) (query other : Query) :
    ((lookup.ask query).2.ask other).2.Alike ((lookup.ask other).2.ask query).2 where
  program_eq := by
    simp only [program_ask]
  counts_eq := by
    simp only [counts_ask, program_ask]
    by_cases same : query.key = other.key
    · have sameFound :
          (∃ symbol, search lookup.program query = .ok symbol) ↔
            ∃ symbol, search lookup.program other = .ok symbol := by
        simp only [← @search_key_eq_ok_iff _ query, ← @search_key_eq_ok_iff _ other, same]
      have sameKnown :
          (lookup.ask query).2.knows other.key = (lookup.ask other).2.knows query.key := by
        rw [Bool.eq_iff_iff, knows_ask, knows_ask, same, sameFound]
      rw [sameKnown, same]
    · have firstKept : (lookup.ask query).2.knows other.key = lookup.knows other.key := by
        rw [Bool.eq_iff_iff, knows_ask]
        simp [Ne.symm same]
      have secondKept : (lookup.ask other).2.knows query.key = lookup.knows query.key := by
        rw [Bool.eq_iff_iff, knows_ask]
        simp [same]
      rw [firstKept, secondKept, Counts.after_after]
  knows_iff key := by
    simp only [knows_ask, program_ask, or_right_comm]

end Alike

/-- The order of questions makes no difference to what a lookup knows and counts. -/
theorem alike_askAll_of_perm
    {queries others : List Query} (reordered : queries.Perm others) (lookup : Lookup) :
    (lookup.askAll queries).Alike (lookup.askAll others) := by
  induction reordered generalizing lookup with
  | nil => exact .refl lookup
  | cons query _ inductionHypothesis => exact inductionHypothesis _
  | swap query other queries => exact (Alike.swap lookup other query).askAll queries
  | trans _ _ firstHypothesis secondHypothesis =>
      exact (firstHypothesis lookup).trans (secondHypothesis lookup)

end Lookup

/-! ## Inquiries that ask the same -/

namespace Inquiry

variable {α β : Type}

/-- Two inquiries that ask the same questions as long as the answers are the same, never look
at the counters, and come to related results. -/
inductive Alike (related : α → β → Prop) : Inquiry α → Inquiry β → Prop where
  | done {result : α} {other : β} (results : related result other) :
      Alike related (done result) (done other)
  | ask (query : Lookup.Query) {next : Except PatchError Symbol → Inquiry α}
      {otherNext : Except PatchError Symbol → Inquiry β}
      (later : ∀ answer, Alike related (next answer) (otherNext answer)) :
      Alike related (ask query next) (ask query otherNext)

theorem Alike.mono
    {related wider : α → β → Prop} {first : Inquiry α} {second : Inquiry β}
    (alike : Alike related first second)
    (weaker : ∀ result other, related result other → wider result other) :
    Alike wider first second := by
  induction alike with
  | done results => exact .done (weaker _ _ results)
  | ask query _ inductionHypothesis => exact .ask query inductionHypothesis

theorem Uncounted.alike {inquiry : Inquiry α} (uncounted : inquiry.Uncounted) :
    Alike Eq inquiry inquiry := by
  induction uncounted with
  | done result => exact .done rfl
  | ask query _ inductionHypothesis => exact .ask query inductionHypothesis

/-- Whatever a lookup of the program was asked before, both inquiries ask it the same
questions and come to the same two results. -/
theorem Alike.exists_results
    {related : α → β → Prop} {first : Inquiry α} {second : Inquiry β}
    (alike : Alike related first second) (program : Program) :
    ∃ result other queries,
      related result other ∧
        ∀ lookup,
          (Lookup.ofProgram program).Reaches lookup →
            first.run lookup = (result, lookup.askAll queries) ∧
              second.run lookup = (other, lookup.askAll queries) := by
  induction alike with
  | @done result other results => exact ⟨result, other, [], results, fun _ _ => ⟨rfl, rfl⟩⟩
  | @ask query next otherNext _ inductionHypothesis =>
      rcases inductionHypothesis (Lookup.search program query) with
        ⟨result, other, queries, results, runs⟩
      refine ⟨result, other, query :: queries, results, ?_⟩
      intro lookup reached
      have answer := reached.ask_eq_search query
      have later := runs (lookup.ask query).2 (reached.ask query)
      rw [← answer] at later
      exact later

end Inquiry

end BytecodePatch
