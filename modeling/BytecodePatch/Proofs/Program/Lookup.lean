import BytecodePatch.Build.Inquiry
import BytecodePatch.Proofs.Text.Blank

/-!
# What a lookup answers

The answers that a lookup keeps never show: as long as each of them is what a search would
find, every question is answered as a search answers it, and what is kept afterwards is again
what a search would find. Blanks around a signature make no difference to a search, so that
the answer to one spelling may be kept for the others.
-/

namespace BytecodePatch

theorem Signature.parse_trimmed (text : String) : parse (Text.trimmed text) = parse text := by
  simp only [parse, Text.trimmed, String.toList_ofList, Text.trim_trim]

namespace Lookup

/-! ## Questions -/

theorem candidates_key (program : Program) (query : Query) :
    candidates program query.key = candidates program query := by
  simp only [candidates, Query.key, Signature.parse_trimmed]

/-- A search finds the same for a question and its key. -/
theorem search_key_eq_ok_iff {program : Program} {query : Query} {symbol : Symbol} :
    search program query.key = .ok symbol ↔ search program query = .ok symbol := by
  unfold search
  rw [candidates_key]
  split <;> simp

/-! ## Answers -/

/-- Every answer that is kept is one that a search finds. -/
def Faithful (lookup : Lookup) : Prop :=
  ∀ query symbol,
    lookup.answers.lookup query = some symbol → search lookup.program query = .ok symbol

theorem faithful_ofProgram (program : Program) : (ofProgram program).Faithful := by
  intro query symbol kept
  cases kept

@[simp]
theorem program_ask (lookup : Lookup) (query : Query) :
    (lookup.ask query).2.program = lookup.program := by
  unfold ask
  split
  · rfl
  · dsimp only
    split <;> rfl

/-- What is kept makes no difference to an answer. -/
theorem ask_eq_search {lookup : Lookup} (faithful : lookup.Faithful) (query : Query) :
    (lookup.ask query).1 = search lookup.program query := by
  unfold ask
  split
  · rename_i symbol kept
    exact (search_key_eq_ok_iff.mp (faithful _ _ kept)).symm
  · dsimp only
    split
    · rename_i found
      exact found.symm
    · rename_i failed
      exact failed.symm

theorem Faithful.ask {lookup : Lookup} (faithful : lookup.Faithful) (query : Query) :
    (lookup.ask query).2.Faithful := by
  unfold Lookup.ask
  split
  · exact faithful
  · dsimp only
    split
    · rename_i symbol found
      intro other answer kept
      dsimp only at kept ⊢
      rw [List.lookup_cons] at kept
      by_cases same : other = query.key
      · subst same
        simp only [beq_self_eq_true, Option.some.injEq] at kept
        subst kept
        exact search_key_eq_ok_iff.mpr found
      · simp only [beq_eq_false_iff_ne.mpr same] at kept
        exact faithful other answer kept
    · exact faithful

/-- The lookups that come of one by asking questions. -/
inductive Reaches (start : Lookup) : Lookup → Prop where
  | refl : Reaches start start
  | ask {lookup : Lookup} (reached : Reaches start lookup) (query : Query) :
      Reaches start (lookup.ask query).2

namespace Reaches

variable {first second third : Lookup}

theorem trans (reached : first.Reaches second) (further : second.Reaches third) :
    first.Reaches third := by
  induction further with
  | refl => exact reached
  | ask _ query inductionHypothesis => exact inductionHypothesis.ask query

theorem program_eq (reached : first.Reaches second) : second.program = first.program := by
  induction reached with
  | refl => rfl
  | ask _ query inductionHypothesis => rw [program_ask, inductionHypothesis]

theorem faithful (reached : first.Reaches second) (faithful : first.Faithful) :
    second.Faithful := by
  induction reached with
  | refl => exact faithful
  | ask _ query inductionHypothesis => exact inductionHypothesis.ask query

/-- Whatever was asked before, a question is answered by a search of the program. -/
theorem ask_eq_search
    {program : Program} {lookup : Lookup}
    (reached : (ofProgram program).Reaches lookup) (query : Query) :
    (lookup.ask query).1 = search program query := by
  rw [Lookup.ask_eq_search (reached.faithful (faithful_ofProgram program)), reached.program_eq]
  rfl

end Reaches

/-- The method that a search finds for a type and a signature. -/
def searchMethod (program : Program) (type signature : String) :
    Except PatchError MemberPlace :=
  methodPlace ⟨.method, type, signature⟩ (search program ⟨.method, type, signature⟩)

theorem askMethod_eq {lookup : Lookup} (faithful : lookup.Faithful) (type signature : String) :
    (lookup.askMethod type signature).1 = searchMethod lookup.program type signature := by
  simp only [askMethod, searchMethod, ask_eq_search faithful]

theorem Reaches.askMethod_eq
    {program : Program} {lookup : Lookup}
    (reached : (ofProgram program).Reaches lookup) (type signature : String) :
    (lookup.askMethod type signature).1 = searchMethod program type signature := by
  simp only [askMethod, searchMethod, reached.ask_eq_search]

theorem reaches_askMethod (lookup : Lookup) (type signature : String) :
    lookup.Reaches (lookup.askMethod type signature).2 :=
  Reaches.refl.ask _

end Lookup

/-! ## Inquiries -/

namespace Inquiry

variable {α : Type}

/-- An inquiry does nothing to a lookup but ask it questions. -/
theorem reaches_run :
    ∀ (inquiry : Inquiry α) (lookup : Lookup), lookup.Reaches (inquiry.run lookup).2
  | done _, _ => .refl
  | ask query next, lookup =>
      (Lookup.Reaches.refl.ask query).trans
        (reaches_run (next (lookup.ask query).1) (lookup.ask query).2)
  | count next, lookup => reaches_run (next lookup.counts) lookup

/-- The inquiries that never look at the counters. -/
inductive Uncounted : Inquiry α → Prop where
  | done (result : α) : Uncounted (done result)
  | ask (query : Lookup.Query) {next : Except PatchError Symbol → Inquiry α}
      (later : ∀ answer, Uncounted (next answer)) : Uncounted (ask query next)

/-- Without a look at the counters, the result of an inquiry depends on the program alone. -/
theorem Uncounted.result_eq {inquiry : Inquiry α} (uncounted : inquiry.Uncounted) :
    ∀ {first second : Lookup},
      first.Faithful → second.Faithful → first.program = second.program →
        (inquiry.run first).1 = (inquiry.run second).1 := by
  induction uncounted with
  | done result =>
      intro first second _ _ _
      rfl
  | ask query _ inductionHypothesis =>
      intro first second firstFaithful secondFaithful sameProgram
      have sameAnswer : (first.ask query).1 = (second.ask query).1 := by
        rw [Lookup.ask_eq_search firstFaithful, Lookup.ask_eq_search secondFaithful,
          sameProgram]
      simp only [run, sameAnswer]
      apply inductionHypothesis
      · exact firstFaithful.ask query
      · exact secondFaithful.ask query
      · rw [Lookup.program_ask, Lookup.program_ask, sameProgram]

end Inquiry

end BytecodePatch
