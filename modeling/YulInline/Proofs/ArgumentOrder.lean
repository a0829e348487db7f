import YulInline.Inliner.Run

/-!
# The order of arguments

Arguments are evaluated from right to left, and what is hoisted out of them keeps that order. The
first argument that is moved is the first one of all if the call itself is expanded, and otherwise
the first one out of which something is hoisted (`Turn.firstMoved`). Those before it are as they
were. It and all those behind it become variables, and what computes them stands in front of the
call, the last argument first.

The arguments are visited from left to right, though, and each of them in the state that the one
before it has left. What is done for one argument is recorded as a `Turn`, with the states that it
starts from and ends in.
-/

namespace YulInline

namespace InlineM

variable {α β : Type}

/-- A sequence of two steps succeeds if both do. -/
theorem bind_eq_ok {action : InlineM α} {next : α → InlineM β} {b : β} {start final : Inliner} :
    (action >>= next) start = .ok b final ↔
      ∃ a between, action start = .ok a between ∧ next a between = .ok b final := by
  show EStateM.bind action next start = .ok b final ↔ _
  rw [EStateM.bind]
  cases haction : action start with
  | ok a between =>
    constructor
    · exact fun h => ⟨a, between, rfl, h⟩
    · rintro ⟨a', between', heq, h⟩
      obtain ⟨rfl, rfl⟩ := EStateM.Result.ok.inj heq
      exact h
  | error error between =>
    constructor
    · exact nofun
    · rintro ⟨_, _, heq, -⟩
      cases heq

theorem pure_eq_ok {a b : α} {start final : Inliner} :
    (pure a : InlineM α) start = .ok b final ↔ b = a ∧ final = start := by
  show EStateM.Result.ok a start = .ok b final ↔ _
  rw [EStateM.Result.ok.injEq, eq_comm, eq_comm (a := start)]

theorem function_eq_ok_iff {name : String} {function : FunctionDef} {start final : Inliner} :
    InlineM.function name start = .ok function final ↔
      start.function? name = some function ∧ final = start := by
  cases hfound : start.function? name with
  | none =>
    rw [function_eq_error hfound]
    constructor <;> nofun
  | some other =>
    rw [function_eq_ok hfound, EStateM.Result.ok.injEq, Option.some.injEq, eq_comm (a := start)]

theorem checkArity_eq_ok {function : FunctionDef} {count : Nat} {start final : Inliner}
    (h : checkArity function count start = .ok () final) : final = start := by
  rw [checkArity] at h
  split at h
  · exact (pure_eq_ok.mp h).2
  · cases h

/-- A call is expanded into the declaration of the variable for its result and a block, and the
expansion is recorded. -/
theorem expandCall_eq_ok {site : Site} {callee : FunctionDef} {result : TypedName} {args : List Expr}
    {hoisted : List Stmt} {holder : String} {start final : Inliner}
    (h : expandCall site callee result args start = .ok (hoisted, holder) final) :
    ∃ body expansion earlier, hoisted = [.declare [⟨holder, result.type⟩] none, .block body] ∧
      final.expansions = expansion :: earlier ∧ expansion.caller = site.caller ∧
      expansion.callee.name = callee.name ∧ expansion.result = holder := by
  rw [expandCall] at h
  obtain ⟨arguments, s₁, -, h⟩ := bind_eq_ok.mp h
  obtain ⟨name, s₂, -, h⟩ := bind_eq_ok.mp h
  obtain ⟨callee', s₃, hcallee, h⟩ := bind_eq_ok.mp h
  obtain ⟨body, s₄, -, h⟩ := bind_eq_ok.mp h
  obtain ⟨_, s₅, hmodify, h⟩ := bind_eq_ok.mp h
  obtain ⟨hvalue, rfl⟩ := pure_eq_ok.mp h
  obtain ⟨rfl, rfl⟩ := Prod.mk.inj hvalue
  obtain ⟨hfound, -⟩ := function_eq_ok_iff.mp hcallee
  have hname : callee'.name = callee.name := by simpa using List.find?_some hfound
  obtain rfl := (EStateM.Result.ok.inj hmodify).2
  exact ⟨body, ⟨site.caller, callee', arguments, holder⟩, s₄.expansions, rfl, rfl, rfl, hname, rfl⟩

/-- An argument for which nothing is hoisted stays unless it is to be moved, the result of a call
that was expanded stays, and any other argument is bound to a variable. -/
theorem bindArgument_eq_ok {hint type : String} {toFront : Bool} {hoisted bound : List Stmt}
    {arg left : Expr} {start final : Inliner}
    (h : bindArgument hint type toFront hoisted arg start = .ok (bound, left) final) :
    (hoisted = [] ∧ toFront = false ∨ hoisted ≠ [] ∧ arg.ident?.isSome = true) ∧
        bound = hoisted ∧ left = arg ∧ final = start ∨
      (hoisted = [] ∧ toFront = true ∨ hoisted ≠ [] ∧ arg.ident? = none) ∧
        ∃ name names, start.names.fresh hint = (name, names) ∧
          bound = hoisted ++ [.declare [⟨name, type⟩] (some arg)] ∧ left = .ident name ∧
          final = { start with names } := by
  rw [bindArgument] at h
  split at h
  · next hstays =>
    obtain ⟨hvalue, rfl⟩ := pure_eq_ok.mp h
    obtain ⟨rfl, rfl⟩ := Prod.mk.inj hvalue
    refine .inl ⟨?_, rfl, rfl, rfl⟩
    simpa using hstays
  · next hmoved =>
    have hcase : hoisted = [] ∧ toFront = true ∨ hoisted ≠ [] ∧ arg.ident? = none := by
      cases hoisted <;> simpa using hmoved
    obtain ⟨name, between, hname, h⟩ := bind_eq_ok.mp h
    obtain ⟨hvalue, rfl⟩ := pure_eq_ok.mp h
    obtain ⟨rfl, rfl⟩ := Prod.mk.inj hvalue
    obtain ⟨rfl, rfl⟩ := EStateM.Result.ok.inj hname
    exact .inr ⟨hcase, _, _, rfl, rfl, rfl, rfl⟩

end InlineM

/-! ## One expression -/

variable {site : Site} {start final : Inliner} {hoisted : List Stmt}

/-- What the expansion of a call comes to: the function is demanded and looked up, the arguments are
expanded, and if the function is to be expanded, the variable for its result takes the place of the
call. -/
theorem Expr.expand_call_eq_ok {name : String} {args : List Expr} {rest : Expr}
    (h : (Expr.call name args).expand site start = .ok (hoisted, rest) final) :
    ∃ demanded function hints types front args' between,
      site.demand name start = .ok () demanded ∧ demanded.function? name = some function ∧
      Expr.expandArgs site hints types (function.result? site.caller).isSome args demanded =
        .ok (front, args') between ∧
      match function.result? site.caller with
      | none => hoisted = front ∧ rest = .call name args' ∧ final = between
      | some result => ∃ holder body expansion earlier,
          hoisted = front ++ [.declare [⟨holder, result.type⟩] none, .block body] ∧
          rest = .ident holder ∧ final.expansions = expansion :: earlier ∧
          expansion.caller = site.caller ∧ expansion.callee.name = name ∧
          expansion.result = holder := by
  rw [Expr.expand] at h
  obtain ⟨_, demanded, hdemand, h⟩ := InlineM.bind_eq_ok.mp h
  obtain ⟨function, s₁, hfunction, h⟩ := InlineM.bind_eq_ok.mp h
  obtain ⟨hfound, hs₁⟩ := InlineM.function_eq_ok_iff.mp hfunction
  obtain ⟨_, s₂, hcount, h⟩ := InlineM.bind_eq_ok.mp h
  have hs₂ : s₂ = s₁ := InlineM.checkArity_eq_ok hcount
  rw [hs₂, hs₁] at h
  obtain ⟨⟨front, args'⟩, between, hargs, h⟩ := InlineM.bind_eq_ok.mp h
  refine ⟨demanded, function, _, _, front, args', between, hdemand, hfound, hargs, ?_⟩
  have hname : function.name = name := by simpa using List.find?_some hfound
  cases hresult : function.result? site.caller with
  | none =>
    rw [hresult] at h
    obtain ⟨hvalue, rfl⟩ := InlineM.pure_eq_ok.mp h
    obtain ⟨rfl, rfl⟩ := Prod.mk.inj hvalue
    exact ⟨rfl, rfl, rfl⟩
  | some result =>
    rw [hresult] at h
    obtain ⟨⟨expanded, holder⟩, s₂, hexpand, h⟩ := InlineM.bind_eq_ok.mp h
    obtain ⟨hvalue, rfl⟩ := InlineM.pure_eq_ok.mp h
    obtain ⟨rfl, rfl⟩ := Prod.mk.inj hvalue
    obtain ⟨body, expansion, earlier, rfl, hrecord, hcaller, hcallee, hholder⟩ :=
      InlineM.expandCall_eq_ok hexpand
    exact ⟨holder, body, expansion, earlier, rfl, rfl, hrecord, hcaller, hcallee.trans hname, hholder⟩

mutual

/-- What nothing is hoisted out of is as it was. -/
theorem Expr.eq_of_expand : ∀ {e rest : Expr} {start final : Inliner},
    e.expand site start = .ok ([], rest) final → rest = e
  | .literal value, rest, start, final, h => by
    rw [Expr.expand] at h
    exact (Prod.mk.inj (InlineM.pure_eq_ok.mp h).1).2
  | .ident name, rest, start, final, h => by
    rw [Expr.expand] at h
    exact (Prod.mk.inj (InlineM.pure_eq_ok.mp h).1).2
  | .instr op args, rest, start, final, h => by
    rw [Expr.expand] at h
    obtain ⟨⟨front, args'⟩, between, hargs, h⟩ := InlineM.bind_eq_ok.mp h
    obtain ⟨hvalue, -⟩ := InlineM.pure_eq_ok.mp h
    obtain ⟨rfl, rfl⟩ := Prod.mk.inj hvalue
    rw [Expr.eq_of_expandArgs hargs]
  | .call name args, rest, start, final, h => by
    obtain ⟨demanded, function, hints, types, front, args', between, -, -, hargs, hcall⟩ :=
      Expr.expand_call_eq_ok h
    cases hresult : function.result? site.caller with
    | none =>
      rw [hresult] at hcall
      obtain ⟨rfl, rfl, -⟩ := hcall
      rw [Expr.eq_of_expandArgs hargs]
    | some result =>
      rw [hresult] at hcall
      obtain ⟨holder, body, _, _, hnil, -⟩ := hcall
      simp at hnil

theorem Expr.eq_of_expandArgs : ∀ {args args' : List Expr} {hints types : List String}
    {toFront : Bool} {start final : Inliner},
    Expr.expandArgs site hints types toFront args start = .ok ([], args') final → args' = args
  | [], args', hints, types, toFront, start, final, h => by
    rw [Expr.expandArgs] at h
    exact (Prod.mk.inj (InlineM.pure_eq_ok.mp h).1).2
  | arg :: args, args', hints, types, toFront, start, final, h => by
    rw [Expr.expandArgs] at h
    obtain ⟨⟨hoisted, rest⟩, s₁, harg, h⟩ := InlineM.bind_eq_ok.mp h
    obtain ⟨⟨bound, left⟩, s₂, hbound, h⟩ := InlineM.bind_eq_ok.mp h
    obtain ⟨⟨later, args₁⟩, s₃, hargs, h⟩ := InlineM.bind_eq_ok.mp h
    obtain ⟨hvalue, -⟩ := InlineM.pure_eq_ok.mp h
    obtain ⟨hnil, rfl⟩ := Prod.mk.inj hvalue
    obtain ⟨rfl, rfl⟩ := List.append_eq_nil_iff.mp hnil.symm
    rcases InlineM.bindArgument_eq_ok hbound with ⟨-, rfl, rfl, -⟩ | ⟨-, _, _, -, hnil', -⟩
    · rw [Expr.eq_of_expand harg, Expr.eq_of_expandArgs hargs]
    · simp at hnil'

end

/-! ## One argument -/

/-- What was done for an argument: it was expanded, and then it stayed or was bound to a variable.
-/
structure Turn where
  /-- The state before. -/
  start : Inliner
  /-- The argument as it was. -/
  arg : Expr
  /-- What its own expansion hoisted out of it. -/
  hoisted : List Stmt
  /-- What its own expansion left of it. -/
  rest : Expr
  /-- The state after its own expansion. -/
  expanded : Inliner
  /-- The declaration of the variable that it was bound to, if it was. -/
  binding : List Stmt
  /-- What the argument has become. -/
  left : Expr
  /-- The state in the end. -/
  final : Inliner

namespace Turn

/-- The first part of what was done is the expansion of the argument by itself. -/
def Expands (site : Site) (turn : Turn) : Prop :=
  turn.arg.expand site turn.start = .ok (turn.hoisted, turn.rest) turn.expanded

/-- The argument is a call that is to be expanded: the function that it finds when it has been
demanded has one return variable, and is not the one whose body is being expanded. -/
def IsExpandedCall (site : Site) (turn : Turn) : Prop :=
  ∃ name args demanded function, turn.arg = .call name args ∧
    site.demand name turn.start = .ok () demanded ∧ demanded.function? name = some function ∧
    (function.result? site.caller).isSome

/-- The argument is as it was, and nothing is put in front of it. -/
structure Stays (turn : Turn) : Prop where
  hoisted : turn.hoisted = []
  binding : turn.binding = []
  left : turn.left = turn.arg
  final : turn.final = turn.expanded

/-- The argument was a call that has been expanded, and the variable for the result of the call
stands for it. -/
structure Held (site : Site) (turn : Turn) : Prop where
  call : turn.IsExpandedCall site
  binding : turn.binding = []
  final : turn.final = turn.expanded
  /-- The variable is declared last, in front of the block that computes it, and this expansion is
  the last one that was recorded. -/
  result : ∃ front type holder body expansion earlier,
    turn.hoisted = front ++ [.declare [⟨holder, type⟩] none, .block body] ∧
    turn.left = .ident holder ∧ turn.expanded.expansions = expansion :: earlier ∧
    expansion.caller = site.caller ∧ expansion.result = holder ∧
    ∃ args, turn.arg = .call expansion.callee.name args

/-- The argument is bound to a fresh variable, after what was hoisted out of it. -/
structure Bound (site : Site) (hint type : String) (turn : Turn) : Prop where
  noCall : ¬ turn.IsExpandedCall site
  fresh : ∃ name names, turn.expanded.names.fresh hint = (name, names) ∧
    turn.binding = [.declare [⟨name, type⟩] (some turn.rest)] ∧ turn.left = .ident name ∧
    turn.final = { turn.expanded with names }

/-- The number of arguments in front of the first one that is moved. -/
def firstMoved (toFront : Bool) (turns : List Turn) : Nat :=
  if toFront then 0 else turns.findIdx fun turn => !turn.hoisted.isEmpty

variable {turn : Turn}

/-- A call that is expanded leaves the variable for its result, and something is hoisted for it. -/
theorem IsExpandedCall.result (h : turn.IsExpandedCall site)
    (hexpand : turn.Expands site) :
    ∃ front type holder body expansion earlier,
      turn.hoisted = front ++ [.declare [⟨holder, type⟩] none, .block body] ∧
      turn.rest = .ident holder ∧ turn.expanded.expansions = expansion :: earlier ∧
      expansion.caller = site.caller ∧ expansion.result = holder ∧
      ∃ args, turn.arg = .call expansion.callee.name args := by
  obtain ⟨name, args, demanded, function, harg, hdemand, hfound, hsome⟩ := h
  rw [Expands, harg] at hexpand
  obtain ⟨demanded', function', _, _, front, args', _, hdemand', hfound', -, hcall⟩ :=
    Expr.expand_call_eq_ok hexpand
  rw [hdemand] at hdemand'
  obtain rfl := (EStateM.Result.ok.inj hdemand').2
  rw [hfound] at hfound'
  obtain rfl := Option.some.inj hfound'
  obtain ⟨result, hresult⟩ := Option.isSome_iff_exists.mp hsome
  rw [hresult] at hcall
  obtain ⟨holder, body, expansion, earlier, hhoisted, hrest, hrecord, hcaller, hcallee, hholder⟩ :=
    hcall
  exact ⟨front, result.type, holder, body, expansion, earlier, hhoisted, hrest, hrecord, hcaller,
    hholder, args, hcallee ▸ harg⟩

/-- What else something is hoisted out of does not become a variable by itself. -/
theorem ident?_of_not_isExpandedCall (h : ¬ turn.IsExpandedCall site)
    (hexpand : turn.Expands site) (hhoisted : turn.hoisted ≠ []) : turn.rest.ident? = none := by
  rw [Expands] at hexpand
  cases harg : turn.arg with
  | literal value =>
    rw [harg, Expr.expand] at hexpand
    exact absurd (Prod.mk.inj (InlineM.pure_eq_ok.mp hexpand).1).1 hhoisted
  | ident name =>
    rw [harg, Expr.expand] at hexpand
    exact absurd (Prod.mk.inj (InlineM.pure_eq_ok.mp hexpand).1).1 hhoisted
  | instr op args =>
    rw [harg, Expr.expand] at hexpand
    obtain ⟨_, _, _, hexpand⟩ := InlineM.bind_eq_ok.mp hexpand
    obtain ⟨-, hrest⟩ := Prod.mk.inj (InlineM.pure_eq_ok.mp hexpand).1
    rw [hrest]
    rfl
  | call name args =>
    rw [harg] at hexpand
    obtain ⟨demanded, function, _, _, _, args', _, hdemand, hfound, -, hcall⟩ :=
      Expr.expand_call_eq_ok hexpand
    cases hresult : function.result? site.caller with
    | none =>
      rw [hresult] at hcall
      rw [hcall.2.1]
      rfl
    | some result =>
      refine absurd ⟨name, args, demanded, function, harg, hdemand, hfound, ?_⟩ h
      rw [hresult]
      rfl

/-- The turn of an argument. It stays if nothing is hoisted out of it and it is not to be moved, and
becomes a variable otherwise. -/
theorem exists_turn {hint type : String} {toFront : Bool} {arg rest left : Expr}
    {hoisted bound : List Stmt} {start between final : Inliner}
    (hexpand : arg.expand site start = .ok (hoisted, rest) between)
    (hbind : InlineM.bindArgument hint type toFront hoisted rest between = .ok (bound, left) final) :
    ∃ turn : Turn, turn.Expands site ∧ turn.start = start ∧ turn.arg = arg ∧
      turn.hoisted = hoisted ∧ bound = hoisted ++ turn.binding ∧ turn.left = left ∧
      turn.final = final ∧
      if hoisted = [] ∧ toFront = false then turn.Stays
      else turn.Held site ∨ turn.Bound site hint type := by
  rcases InlineM.bindArgument_eq_ok hbind with ⟨hcase, rfl, rfl, rfl⟩ |
    ⟨hcase, name, names, hfresh, rfl, rfl, rfl⟩
  · let turn : Turn := ⟨start, arg, bound, left, final, [], left, final⟩
    have hturn : turn.Expands site := hexpand
    refine ⟨turn, hturn, rfl, rfl, rfl, (List.append_nil _).symm, rfl, rfl, ?_⟩
    rcases hcase with ⟨rfl, rfl⟩ | ⟨hhoisted, hident⟩
    · rw [if_pos ⟨rfl, rfl⟩]
      exact ⟨rfl, rfl, Expr.eq_of_expand hexpand, rfl⟩
    · rw [if_neg fun h => hhoisted h.1]
      by_cases hcall : turn.IsExpandedCall site
      · exact .inl ⟨hcall, rfl, rfl, hcall.result hturn⟩
      · have hrest : left.ident? = none := ident?_of_not_isExpandedCall hcall hturn hhoisted
        rw [hrest] at hident
        cases hident
  · let turn : Turn := ⟨start, arg, hoisted, rest, between,
      [.declare [⟨name, type⟩] (some rest)], .ident name, { between with names }⟩
    have hturn : turn.Expands site := hexpand
    refine ⟨turn, hturn, rfl, rfl, rfl, rfl, rfl, rfl, ?_⟩
    have hmoved : ¬ (hoisted = [] ∧ toFront = false) := by
      rintro ⟨rfl, rfl⟩
      simp at hcase
    have hnone : ¬ turn.IsExpandedCall site := by
      intro hcall
      obtain ⟨front, _, holder, _, _, _, hhoisted, hrest, -⟩ := hcall.result hturn
      have hhoisted' : hoisted = front ++ _ := hhoisted
      have hrest' : rest = .ident holder := hrest
      rcases hcase with ⟨rfl, -⟩ | ⟨-, hident⟩
      · simp at hhoisted'
      · rw [hrest'] at hident
        cases hident
    rw [if_neg hmoved]
    exact .inr ⟨hnone, name, names, hfresh, rfl, rfl, rfl⟩

end Turn

/-! ## All arguments -/

open Turn (firstMoved)

theorem Turn.firstMoved_cons (toFront : Bool) (turn : Turn) (turns : List Turn) :
    firstMoved toFront (turn :: turns) =
      if turn.hoisted = [] ∧ toFront = false then firstMoved false turns + 1 else 0 := by
  cases toFront <;> cases hhoisted : turn.hoisted <;>
    simp [firstMoved, List.findIdx_cons, hhoisted]

/-- The arguments of a call or an instruction have one turn each, from left to right. Before the
first one that is moved they stay as they are; it and all behind it become variables, namely the
result of the call if the argument is a call that is expanded, and else a fresh variable that is
bound to what its own expansion has left. What is put in front of the call computes them from right
to left. -/
theorem Expr.expandArgs_right_to_left {hints types : List String} {toFront : Bool}
    {args left : List Expr}
    (h : Expr.expandArgs site hints types toFront args start = .ok (hoisted, left) final) :
    ∃ turns : List Turn, turns.map Turn.arg = args ∧ turns.map Turn.left = left ∧
      start :: turns.map Turn.final = turns.map Turn.start ++ [final] ∧
      (∀ turn ∈ turns, turn.Expands site) ∧
      (∀ i turn, turns[i]? = some turn →
        if i < firstMoved toFront turns then turn.Stays
        else turn.Held site ∨ turn.Bound site (hints[i]?.getD "") (types[i]?.getD "")) ∧
      hoisted = (turns.drop (firstMoved toFront turns)).reverse.flatMap
        fun turn => turn.hoisted ++ turn.binding := by
  induction args generalizing hints types toFront start hoisted left with
  | nil =>
    rw [Expr.expandArgs] at h
    obtain ⟨hvalue, rfl⟩ := InlineM.pure_eq_ok.mp h
    obtain ⟨rfl, rfl⟩ := Prod.mk.inj hvalue
    exact ⟨[], rfl, rfl, rfl, nofun, nofun, by simp⟩
  | cons arg args ih =>
    rw [Expr.expandArgs] at h
    obtain ⟨⟨front, rest⟩, s₁, harg, h⟩ := InlineM.bind_eq_ok.mp h
    obtain ⟨⟨bound, left₁⟩, s₂, hbound, h⟩ := InlineM.bind_eq_ok.mp h
    obtain ⟨⟨later, lefts⟩, s₃, hargs, h⟩ := InlineM.bind_eq_ok.mp h
    obtain ⟨hvalue, rfl⟩ := InlineM.pure_eq_ok.mp h
    obtain ⟨rfl, rfl⟩ := Prod.mk.inj hvalue
    obtain ⟨turn, hturn, rfl, rfl, rfl, rfl, rfl, rfl, hcase⟩ := Turn.exists_turn harg hbound
    obtain ⟨turns, rfl, rfl, hstates, hturns, hcases, rfl⟩ := ih hargs
    refine ⟨turn :: turns, rfl, rfl, ?_, List.forall_mem_cons.mpr ⟨hturn, hturns⟩, ?_⟩
    · rw [List.map_cons, List.map_cons, hstates, List.cons_append]
    by_cases hstays : turn.hoisted = [] ∧ toFront = false
    · -- Nothing has been moved so far.
      rw [Turn.firstMoved_cons, if_pos hstays]
      rw [if_pos hstays] at hcase
      obtain ⟨hnil, rfl⟩ := hstays
      simp only [hnil, List.isEmpty_nil, Bool.not_true, Bool.or_false] at hcases ⊢
      refine ⟨fun i other hother => ?_, ?_⟩
      · cases i with
        | zero =>
          obtain rfl := Option.some.inj hother
          rwa [if_pos (Nat.succ_pos _)]
        | succ i =>
          have hlater := hcases i other hother
          simpa [Nat.succ_lt_succ_iff] using hlater
      · rw [hcase.binding, List.append_nil, List.append_nil, List.drop_succ_cons]
    · -- This one is moved, and all behind it.
      have hfront : (toFront || !turn.hoisted.isEmpty) = true := by
        cases toFront with
        | true => rfl
        | false => simpa using hstays
      have hzero : firstMoved true turns = 0 := rfl
      rw [hfront, hzero] at hcases
      rw [Turn.firstMoved_cons, if_neg hstays, hfront, hzero]
      rw [if_neg hstays] at hcase
      refine ⟨fun i other hother => ?_, ?_⟩
      · rw [if_neg (Nat.not_lt_zero i)]
        cases i with
        | zero =>
          obtain rfl := Option.some.inj hother
          rwa [List.headD_eq_head?_getD, List.headD_eq_head?_getD, List.head?_eq_getElem?,
            List.head?_eq_getElem?] at hcase
        | succ i =>
          have hlater := hcases i other hother
          rwa [if_neg (Nat.not_lt_zero i), List.getElem?_tail, List.getElem?_tail] at hlater
      · rw [List.drop_zero, List.drop_zero, List.reverse_cons, List.flatMap_append,
          List.flatMap_singleton]

/-- The operands of an instruction in a top-level block: a variable, a call to expand that has an
argument to bind, and a sum. -/
def operandsWithCall : List Expr :=
  [.ident "a", .call "f" [.literal ⟨.number, "1", ""⟩], .instr "add" [.ident "b", .ident "a"]]

/-- An inliner at work on a module with the function that `operandsWithCall` calls. -/
def operandsInliner : Inliner where
  module := [.define ⟨"f", [⟨"x", "u256"⟩], [⟨"r", "u256"⟩], [.assign ["r"] (.ident "x")]⟩,
    .block []]
  pending := ["f"]
  names := .ofList ["f", "x", "r", "a", "b"]

/-- The top-level block of that module. -/
def operandsSite : Site where
  position := 1
  caller := ""
  demand := InlineM.demand

/-- What is hoisted out of `operandsWithCall`: the sum comes first, then the call. -/
def operandsHoisted : List Stmt :=
  [.declare [⟨"q", "u8"⟩] (some (.instr "add" [.ident "b", .ident "a"])),
    .declare [⟨"f_x", "u256"⟩] (some (.literal ⟨.number, "1", ""⟩)),
    .declare [⟨"f_r", "u256"⟩] none,
    .block [.assign ["f_r"] (.ident "f_x")]]

theorem Expr.expandArgs_right_to_left_operandsWithCall :
    ∃ final, Expr.expandArgs operandsSite ["p", "p", "q"] ["", "", "u8"] false operandsWithCall
        operandsInliner = .ok (operandsHoisted, [.ident "a", .ident "f_r", .ident "q"]) final ∧
      ∃ turns : List Turn, turns.map Turn.arg = operandsWithCall ∧
        turns.map Turn.left = [.ident "a", .ident "f_r", .ident "q"] ∧
        operandsInliner :: turns.map Turn.final = turns.map Turn.start ++ [final] ∧
        (∀ turn ∈ turns, turn.Expands operandsSite) ∧
        (∀ i turn, turns[i]? = some turn →
          if i < firstMoved false turns then turn.Stays
          else turn.Held operandsSite ∨
            turn.Bound operandsSite ((["p", "p", "q"] : List String)[i]?.getD "")
              ((["", "", "u8"] : List String)[i]?.getD "")) ∧
        operandsHoisted = (turns.drop (firstMoved false turns)).reverse.flatMap
          fun turn => turn.hoisted ++ turn.binding := by
  obtain ⟨final, hrun⟩ : ∃ final, Expr.expandArgs operandsSite ["p", "p", "q"] ["", "", "u8"] false
      operandsWithCall operandsInliner =
        .ok (operandsHoisted, [.ident "a", .ident "f_r", .ident "q"]) final :=
    ⟨_, rfl⟩
  exact ⟨final, hrun, Expr.expandArgs_right_to_left hrun⟩

end YulInline
