import BytecodePatch.Proofs.Code.Lines
import Mathlib.Data.List.Induction

/-!
# Reading code as a list

Whatever can be asked of well linked code is a question about the list of its lines, and the
two walks along its links, from either end, go through all of them.
-/

namespace BytecodePatch.Code

/-- The handles on the way from one along steps, at most `bound` of them. -/
def walk (step : Handle → Option Handle) : (bound : Nat) → Option Handle → List Handle
  | 0, _ => []
  | _ + 1, none => []
  | bound + 1, some handle => handle :: walk step bound (step handle)

@[simp]
theorem walk_none (step : Handle → Option Handle) : ∀ bound : Nat, walk step bound none = []
  | 0 => rfl
  | _ + 1 => rfl

theorem skip?_none (code : Code) (steps : Nat) : code.skip? steps none = none := by
  induction steps with
  | zero => rfl
  | succ steps inductionHypothesis => exact inductionHypothesis

/-- Code answers every question as the list of its lines does. -/
structure ReadsAsList (code : Code) : Prop where
  distinct : code.handles.Nodup
  live : ∀ handle, code.contains handle = true ↔ handle ∈ code.handles
  held : ∀ handle instr, code.get? handle = some instr ↔ ⟨handle, instr⟩ ∈ code.lines
  length : code.length = code.lines.length
  first : code.first? = code.handles.head?
  last : code.last? = code.handles.getLast?
  next :
    ∀ before line after,
      code.lines = before ++ line :: after →
        code.next? line.handle = after.head?.map Line.handle
  previous :
    ∀ before line after,
      code.lines = before ++ line :: after →
        code.previous? line.handle = before.getLast?.map Line.handle
  /-- No walk goes on after the last step, however many more it may make. -/
  forwards : ∀ more, walk code.next? (code.length + more) code.first? = code.handles
  backwards :
    ∀ more, walk code.previous? (code.length + more) code.last? = code.handles.reverse
  placed :
    ∀ handle,
      (∃ position, code.position? handle = some position) ↔ code.contains handle = true
  occupied :
    ∀ position, (∃ handle, code.handleAt? position = some handle) ↔ position < code.length
  inverse :
    ∀ handle position,
      code.position? handle = some position ↔ code.handleAt? position = some handle

namespace WellLinked

variable {code : Code}

/-- From any line on, the links lead through the rest of the lines. -/
theorem walk_next?
    (linked : code.WellLinked) (more : Nat) :
    ∀ before rest : List Line,
      code.lines = before ++ rest →
        walk code.next? (rest.length + more) (rest.head?.map Line.handle) =
          rest.map Line.handle
  | _, [], _ => by
      simp
  | before, line :: rest, cut => by
      have restCut : code.lines = (before ++ [line]) ++ rest := by
        simpa using cut
      have onwards := walk_next? linked more (before ++ [line]) rest restCut
      rw [List.length_cons, Nat.add_right_comm]
      simp only [List.head?_cons, Option.map_some, walk, linked.next?_eq cut, onwards,
        List.map_cons]

/-- Up to any line, the links lead back through the lines before it. -/
theorem walk_previous?
    (linked : code.WellLinked) (more : Nat) (rest after : List Line)
    (cut : code.lines = rest ++ after) :
    walk code.previous? (rest.length + more) (rest.getLast?.map Line.handle) =
      (rest.map Line.handle).reverse := by
  induction rest using List.reverseRecOn generalizing after with
  | nil => simp
  | append_singleton rest line inductionHypothesis =>
      have restCut : code.lines = rest ++ line :: after := by
        simpa using cut
      have onwards := inductionHypothesis (line :: after) restCut
      rw [List.length_append, List.length_singleton, Nat.add_right_comm]
      simp only [List.getLast?_append, List.getLast?_singleton, Option.some_or,
        Option.map_some, walk, linked.previous?_eq restCut, onwards, List.map_append,
        List.map_cons, List.map_nil, List.reverse_append, List.reverse_singleton,
        List.singleton_append]

/-- So many steps along the links lead past so many lines. -/
theorem skip?_eq
    (linked : code.WellLinked) :
    ∀ (steps : Nat) (before rest : List Line),
      code.lines = before ++ rest →
        code.skip? steps (rest.head?.map Line.handle) =
          (rest.drop steps).head?.map Line.handle
  | 0, _, _, _ => rfl
  | steps + 1, _, [], _ => skip?_none code (steps + 1)
  | steps + 1, before, line :: rest, cut => by
      have restCut : code.lines = (before ++ [line]) ++ rest := by
        simpa using cut
      have onwards := skip?_eq linked steps (before ++ [line]) rest restCut
      rw [List.head?_cons, Option.map_some, skip?, Option.bind_some, linked.next?_eq cut,
        onwards, List.drop_succ_cons]

theorem readsAsList (linked : code.WellLinked) : code.ReadsAsList where
  distinct := linked.nodup_handles
  live := fun _ => linked.contains_iff
  held := fun _ _ => linked.get?_eq_some_iff
  length := linked.length_eq
  first := linked.first?_eq
  last := linked.last?_eq
  next := fun _ _ _ cut => linked.next?_eq cut
  previous := fun _ _ _ cut => linked.previous?_eq cut
  forwards := by
    intro more
    rw [linked.length_eq, linked.first?_eq, handles, List.head?_map]
    exact linked.walk_next? more [] code.lines rfl
  backwards := by
    intro more
    rw [linked.length_eq, linked.last?_eq, handles, List.getLast?_map]
    exact linked.walk_previous? more code.lines [] (List.append_nil _).symm
  placed := by
    intro handle
    rw [linked.contains_iff, List.mem_iff_getElem?]
    exact exists_congr fun _ => linked.position?_eq_some_iff
  occupied := by
    intro position
    rw [linked.length_eq, ← Option.isSome_iff_exists, handleAt?, handles]
    simp
  inverse := fun _ _ => linked.position?_eq_some_iff

end WellLinked

end BytecodePatch.Code
