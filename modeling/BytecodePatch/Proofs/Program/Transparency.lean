import BytecodePatch.Proofs.Program.Lookup

/-!
# Kept answers never show

Five kinds of request are served from the same kept answers. Whatever was asked before, each
is answered as a new lookup answers it, down to the signature that an error quotes; only the
counters tell the difference. They count every request once, and the modules once for each
request that was searched for. A request is not searched for again once it had an answer,
however it is spaced.
-/

namespace BytecodePatch.Lookup

/-- What can be asked of a lookup: a member of either kind, a method, a field, a type, or the
place of a method. -/
inductive Request where
  | member (owner signature : String)
  | method (owner signature : String)
  | field (owner signature : String)
  | type (name : String)
  | place (owner signature : String)

namespace Request

/-- The question that a request comes down to. -/
def query : Request → Query
  | member owner signature => ⟨.member, owner, signature⟩
  | method owner signature => ⟨.method, owner, signature⟩
  | field owner signature => ⟨.field, owner, signature⟩
  | type name => ⟨.type, name, ""⟩
  | place owner signature => ⟨.method, owner, signature⟩

/-- The answer to a request, in which a place is shown as the method there, and the lookup
afterwards. -/
def serve (lookup : Lookup) : Request → Except PatchError Symbol × Lookup
  | place owner signature =>
      let (answer, lookup) := lookup.askMethod owner signature
      (answer.map Symbol.method, lookup)
  | request => lookup.ask request.query

/-- What a request makes of the answer to its question. -/
def answer : Request → Except PatchError Symbol → Except PatchError Symbol
  | place owner signature, found =>
      (methodPlace ⟨.method, owner, signature⟩ found).map Symbol.method
  | _, found => found

theorem serve_eq (lookup : Lookup) (request : Request) :
    request.serve lookup =
      (request.answer (lookup.ask request.query).1, (lookup.ask request.query).2) := by
  cases request <;> rfl

/-- A request that has an answer asked a question that has one. -/
theorem exists_of_answer_eq_ok
    {request : Request} {found : Except PatchError Symbol} {symbol : Symbol}
    (answered : request.answer found = .ok symbol) :
    ∃ held, found = .ok held := by
  cases found with
  | ok held => exact ⟨held, rfl⟩
  | error error => cases request <;> cases answered

end Request

/-- The answers to requests, one after another, and the lookup afterwards. -/
def serveAll (lookup : Lookup) : List Request → List (Except PatchError Symbol) × Lookup
  | [] => ([], lookup)
  | request :: requests =>
      let (answer, lookup) := request.serve lookup
      let (answers, lookup) := serveAll lookup requests
      (answer :: answers, lookup)

/-! ## One question -/

/-- All that a question does to a lookup. It is answered from what is kept and counted, or
searched for and counted with the modules, and then an answer is kept. -/
theorem ask_cases (lookup : Lookup) (query : Query) :
    (∃ symbol,
        lookup.answers.lookup query.key = some symbol ∧
          lookup.ask query =
            (.ok symbol, { lookup with counts.hits := lookup.counts.hits + 1 })) ∨
      lookup.answers.lookup query.key = none ∧
        ∃ answers,
          lookup.ask query =
              (search lookup.program query,
                ⟨lookup.program, answers, lookup.counts.hits, lookup.counts.misses + 1,
                  lookup.counts.moduleScans + lookup.program.modules.length⟩) ∧
            ∀ key symbol,
              answers.lookup key = some symbol ↔
                lookup.answers.lookup key = some symbol ∨
                  key = query.key ∧ search lookup.program query = .ok symbol := by
  cases kept : lookup.answers.lookup query.key with
  | some symbol =>
      refine Or.inl ⟨symbol, rfl, ?_⟩
      simp only [ask, kept]
  | none =>
      refine Or.inr ⟨rfl, ?_⟩
      cases found : search lookup.program query with
      | error error =>
          refine ⟨lookup.answers, ?_, ?_⟩
          · simp only [ask, kept, found]
          · simp
      | ok symbol =>
          refine ⟨(query.key, symbol) :: lookup.answers, ?_, ?_⟩
          · simp only [ask, kept, found]
          · intro key other
            rw [List.lookup_cons]
            by_cases same : key = query.key
            · subst same
              simp [kept]
            · simp [beq_eq_false_iff_ne.mpr same, same]

/-! ## Many requests -/

/-- A lookup of a program after requests: what it keeps is what a search finds, everything
that had an answer is kept, and the counters add up. -/
structure Served (program : Program) (requests : List Request) (lookup : Lookup) : Prop where
  program_eq : lookup.program = program
  faithful : lookup.Faithful
  kept :
    ∀ request ∈ requests, ∀ symbol,
      search program request.query = .ok symbol →
        lookup.answers.lookup request.query.key = some symbol
  counted : lookup.counts.hits + lookup.counts.misses = requests.length
  scanned : lookup.counts.moduleScans = lookup.counts.misses * program.modules.length

namespace Served

variable {program : Program} {requests : List Request} {lookup : Lookup}

theorem start (program : Program) : Served program [] (ofProgram program) where
  program_eq := rfl
  faithful := faithful_ofProgram program
  kept := by simp
  counted := rfl
  scanned := (Nat.zero_mul _).symm

/-- A request is answered as a new lookup answers it. -/
theorem answer_eq (served : Served program requests lookup) (request : Request) :
    (request.serve lookup).1 = (request.serve (ofProgram program)).1 := by
  rw [request.serve_eq, request.serve_eq, ask_eq_search served.faithful,
    ask_eq_search (faithful_ofProgram program), served.program_eq]
  rfl

/-- A request whose question has had an answer only counts as a hit. -/
theorem counts_of_kept
    {request : Request} {symbol : Symbol}
    (kept : lookup.answers.lookup request.query.key = some symbol) :
    (request.serve lookup).2.counts =
      { lookup.counts with hits := lookup.counts.hits + 1 } := by
  rcases ask_cases lookup request.query with ⟨_, _, asked⟩ | ⟨missing, _⟩
  · rw [request.serve_eq, asked]
  · rw [missing] at kept
    cases kept

theorem serve (served : Served program requests lookup) (request : Request) :
    Served program (requests ++ [request]) (request.serve lookup).2 := by
  have faithful := served.faithful.ask request.query
  have programEq := served.program_eq
  have counted := served.counted
  have scanned := served.scanned
  rw [request.serve_eq]
  rcases ask_cases lookup request.query with
    ⟨symbol, kept, asked⟩ | ⟨_, answers, asked, answersEq⟩
  · rw [asked] at faithful ⊢
    refine ⟨programEq, faithful, ?_, ?_, scanned⟩
    · intro other member found searched
      rcases List.mem_append.mp member with earlier | now
      · exact served.kept other earlier found searched
      · -- the answer that is kept is the one that the search finds
        obtain rfl := List.mem_singleton.mp now
        have known := served.faithful _ _ kept
        rw [search_key_eq_ok_iff, programEq, searched] at known
        rw [Except.ok.inj known]
        exact kept
    · simp only [List.length_append, List.length_singleton]
      omega
  · rw [asked] at faithful ⊢
    refine ⟨programEq, faithful, ?_, ?_, ?_⟩
    · intro other member found searched
      apply (answersEq _ _).mpr
      rcases List.mem_append.mp member with earlier | now
      · exact Or.inl (served.kept other earlier found searched)
      · obtain rfl := List.mem_singleton.mp now
        exact Or.inr ⟨rfl, programEq ▸ searched⟩
    · simp only [List.length_append, List.length_singleton]
      omega
    · simp only [scanned, programEq, Nat.succ_mul]

/-- Requests are answered as new lookups answer each of them. -/
theorem serveAll :
    ∀ (further : List Request) {requests : List Request} {lookup : Lookup},
      Served program requests lookup →
        (lookup.serveAll further).1 =
            further.map (fun request => (request.serve (ofProgram program)).1) ∧
          Served program (requests ++ further) (lookup.serveAll further).2
  | [], requests, _, served => by
      refine ⟨rfl, ?_⟩
      rw [List.append_nil]
      exact served
  | request :: further, requests, lookup, served => by
      obtain ⟨answers, last⟩ := serveAll further (served.serve request)
      constructor
      · rw [Lookup.serveAll, List.map_cons, ← answers, ← served.answer_eq request]
      · rw [List.append_assoc] at last
        exact last

end Served

/-- Any sequence of requests to one lookup is answered as by a new lookup for each. Every
request counts as a hit or a miss, and each miss searches every module. A request that repeats
one that had an answer, up to blanks around its signature, is a hit and searches none. -/
theorem requests_transparent (program : Program) (requests : List Request) :
    ((ofProgram program).serveAll requests).1 =
        requests.map (fun request => (request.serve (ofProgram program)).1) ∧
      let lookup := ((ofProgram program).serveAll requests).2
      lookup.counts.hits + lookup.counts.misses = requests.length ∧
        lookup.counts.moduleScans = lookup.counts.misses * program.modules.length ∧
          ∀ earlier ∈ requests, ∀ (request : Request) (symbol : Symbol),
            (earlier.serve (ofProgram program)).1 = .ok symbol →
              request.query.kind = earlier.query.kind →
                request.query.type = earlier.query.type →
                  Text.trimmed request.query.member = Text.trimmed earlier.query.member →
                    (request.serve lookup).2.counts =
                      { lookup.counts with hits := lookup.counts.hits + 1 } := by
  obtain ⟨answers, served⟩ := Served.serveAll requests (Served.start program)
  rw [List.nil_append] at served
  refine ⟨answers, served.counted, served.scanned, ?_⟩
  intro earlier member request symbol answered sameKind sameType sameMember
  rw [earlier.serve_eq, ask_eq_search (faithful_ofProgram program)] at answered
  obtain ⟨held, searched⟩ := Request.exists_of_answer_eq_ok answered
  have sameKey : request.query.key = earlier.query.key := by
    simp only [Query.key, sameKind, sameType, sameMember]
  apply Served.counts_of_kept
  rw [sameKey]
  exact served.kept earlier member held searched

/-- The place of a method that was asked for before with other blanks: of the requests only
the first and the failed second one searched the module. -/
theorem requests_transparent_of_repeat :
    let program : Program :=
      ⟨[⟨"Game", [⟨"Player", [], [⟨"Die", "System.Void", [], none, [], .unpatched⟩]⟩]⟩]⟩
    let earlier : Request := .method "Player" " Die()"
    let request : Request := .place "Player" "Die() "
    let requests := [earlier, .type "Enemy"]
    let lookup := ((ofProgram program).serveAll requests).2
    (earlier.serve (ofProgram program)).1 = .ok (.method ⟨⟨0, 0⟩, 0⟩) ∧
      Text.trimmed request.query.member = Text.trimmed earlier.query.member ∧
        lookup.counts = ⟨0, 2, 2⟩ ∧ (request.serve lookup).2.counts = ⟨1, 2, 2⟩ := by
  intro program earlier request requests lookup
  have found :
      (earlier.serve (ofProgram program)).1.toOption = some (.method ⟨⟨0, 0⟩, 0⟩) := by
    decide +kernel
  have answered : (earlier.serve (ofProgram program)).1 = .ok (.method ⟨⟨0, 0⟩, 0⟩) := by
    cases answer : (earlier.serve (ofProgram program)).1 with
    | error error =>
        rw [answer] at found
        cases found
    | ok symbol =>
        rw [answer] at found
        rw [Option.some.inj found]
  have sameMember : Text.trimmed request.query.member = Text.trimmed earlier.query.member := by
    decide +kernel
  have counts : lookup.counts = ⟨0, 2, 2⟩ := by
    decide +kernel
  obtain ⟨_, _, _, repeated⟩ := requests_transparent program requests
  have hit :=
    repeated earlier List.mem_cons_self request _ answered rfl rfl sameMember
  exact ⟨answered, sameMember, counts, by rw [hit, counts]⟩

end BytecodePatch.Lookup
