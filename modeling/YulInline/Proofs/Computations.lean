import Mathlib.Tactic.Tauto
import Mathlib.Logic.Basic

/-!
# Computations over machine states

What a program does is a computation: started in a machine state it ends with a value in another
state, or halts in one, or has no outcome at all. Three notions about computations carry the
developments about meaning. `Comp.Rel` relates two computations that end alike, up to a relation of
their values. `Comp.Ensures` says what holds of the value that a computation ends with. `Comp.Tends`
says that a sequence of computations, each with more outcomes than the one before it, has exactly
the outcomes of another one in the end; this is how what a program does within bounds on its loops
and calls is connected to what it does without them.
-/

namespace YulInline

variable {State α β γ δ : Type}

/-- How a computation ends: with a value, or by halting the machine. -/
inductive Outcome (State α : Type) where
  | done (value : α) (state : State)
  | halted (state : State)
deriving DecidableEq, Repr

/-- A computation, which depends on the state it is started in. It has no outcome if it does not
end, or does something that has no meaning, such as to read a variable that is not in scope. -/
def Comp (State α : Type) : Type :=
  State → Option (Outcome State α)

namespace Comp

instance : Monad (Comp State) where
  pure a := fun state => some (.done a state)
  bind x next := fun state =>
    match x state with
    | some (.done a state) => next a state
    | some (.halted state) => some (.halted state)
    | none => none

/-- The computation that has no outcome. -/
def undefined : Comp State α :=
  fun _ => none

/-- The computation that ends with a value, if there is one. -/
def ofOption : Option α → Comp State α
  | some a => pure a
  | none => undefined

theorem bind_of_done {x : Comp State α} {state state' : State} {a : α}
    (h : x state = some (.done a state')) (next : α → Comp State β) :
    (x >>= next) state = next a state' := by
  show (match x state with
    | some (.done a state) => next a state
    | some (.halted state) => some (.halted state)
    | none => none) = _
  rw [h]

theorem bind_of_halted {x : Comp State α} {state state' : State}
    (h : x state = some (.halted state')) (next : α → Comp State β) :
    (x >>= next) state = some (.halted state') := by
  show (match x state with
    | some (.done a state) => next a state
    | some (.halted state) => some (.halted state)
    | none => none) = _
  rw [h]

theorem bind_of_none {x : Comp State α} {state : State} (h : x state = none)
    (next : α → Comp State β) : (x >>= next) state = none := by
  show (match x state with
    | some (.done a state) => next a state
    | some (.halted state) => some (.halted state)
    | none => none) = _
  rw [h]

/-- Two computations one after the other have an outcome if the first one halts, or ends and the
second one has that outcome from there. -/
theorem bind_eq_some {x : Comp State α} {next : α → Comp State β} {state : State}
    {outcome : Outcome State β} :
    (x >>= next) state = some outcome ↔
      (∃ a state', x state = some (.done a state') ∧ next a state' = some outcome) ∨
      ∃ state', x state = some (.halted state') ∧ outcome = .halted state' := by
  cases hx : x state with
  | none => simp [bind_of_none hx]
  | some first =>
    cases first with
    | done a state' =>
      rw [bind_of_done hx]
      constructor
      · exact fun h => Or.inl ⟨a, state', rfl, h⟩
      · rintro (⟨b, other, heq, h⟩ | ⟨other, heq, -⟩)
        · cases heq
          exact h
        · cases heq
    | halted state' => simp [bind_of_halted hx, eq_comm]

instance : LawfulMonad (Comp State) := by
  refine LawfulMonad.mk' (Comp State) ?_ ?_ ?_
  · intro α x
    funext state
    show (x >>= fun a => pure (id a)) state = x state
    cases hx : x state with
    | none => exact bind_of_none hx _
    | some outcome =>
      cases outcome with
      | done a state' => exact bind_of_done hx _
      | halted state' => exact bind_of_halted hx _
  · intro α β a next
    rfl
  · intro α β γ x next next'
    funext state
    cases hx : x state with
    | none => rw [bind_of_none hx, bind_of_none (bind_of_none hx next)]
    | some outcome =>
      cases outcome with
      | done a state' =>
        rw [bind_of_done hx]
        show (match (x >>= next) state with
          | some (.done a state) => next' a state
          | some (.halted state) => some (.halted state)
          | none => none) = _
        rw [bind_of_done hx]
        rfl
      | halted state' => rw [bind_of_halted hx, bind_of_halted (bind_of_halted hx next)]

@[simp] theorem undefined_bind (next : α → Comp State β) :
    (undefined : Comp State α) >>= next = undefined :=
  rfl

@[simp] theorem ofOption_some (a : α) : (ofOption (some a) : Comp State α) = pure a :=
  rfl

@[simp] theorem ofOption_none : (ofOption none : Comp State α) = undefined :=
  rfl

/-! ## Loops -/

/-- Steps are repeated until one says that it is the last; no more than `bound` are made. -/
def repeatWith (step : α → Comp State (ForInStep α)) : (bound : Nat) → α → Comp State α
  | 0, _ => undefined
  | bound + 1, a => do
    match ← step a with
    | .done b => return b
    | .yield b => repeatWith step bound b

end Comp

/-! ## Related computations -/

theorem optionRel_mono {R S : α → β → Prop} {a : Option α} {b : Option β} (h : Option.Rel R a b)
    (himp : ∀ a b, R a b → S a b) : Option.Rel S a b := by
  cases h with
  | none => exact .none
  | some hab => exact .some (himp _ _ hab)

/-- Outcomes in the same state, whose values are related. -/
inductive Outcome.Rel (R : α → β → Prop) : Outcome State α → Outcome State β → Prop where
  | done {a : α} {b : β} (state : State) (h : R a b) : Outcome.Rel R (.done a state) (.done b state)
  | halted (state : State) : Outcome.Rel R (.halted state) (.halted state)

/-- Steps of loops that both go on or are both the last, and leave related values. -/
inductive StepRel (R : α → β → Prop) : ForInStep α → ForInStep β → Prop where
  | done {a : α} {b : β} (h : R a b) : StepRel R (.done a) (.done b)
  | yield {a : α} {b : β} (h : R a b) : StepRel R (.yield a) (.yield b)

namespace Comp

/-- From every state, both computations have no outcome, or both have related ones. -/
def Rel (R : α → β → Prop) (x : Comp State α) (y : Comp State β) : Prop :=
  ∀ state, Option.Rel (Outcome.Rel R) (x state) (y state)

namespace Rel

variable {R : α → β → Prop} {S : γ → δ → Prop} {x : Comp State α} {y : Comp State β}

theorem pure {a : α} {b : β} (h : R a b) : Rel R (pure a : Comp State α) (pure b) :=
  fun state => .some (.done state h)

theorem undefined : Rel R (undefined : Comp State α) (undefined : Comp State β) :=
  fun _ => .none

theorem mono {R' : α → β → Prop} (h : Rel R x y) (himp : ∀ a b, R a b → R' a b) : Rel R' x y := by
  intro state
  refine optionRel_mono (h state) fun outcome outcome' houtcome => ?_
  cases houtcome with
  | done state' hab => exact .done state' (himp _ _ hab)
  | halted state' => exact .halted state'

theorem bind {next : α → Comp State γ} {next' : β → Comp State δ} (h : Rel R x y)
    (hnext : ∀ a b, R a b → Rel S (next a) (next' b)) : Rel S (x >>= next) (y >>= next') := by
  intro state
  have hstate := h state
  cases hx : x state with
  | none =>
    cases hy : y state with
    | none =>
      rw [bind_of_none hx, bind_of_none hy]
      exact .none
    | some outcome' =>
      rw [hx, hy] at hstate
      cases hstate
  | some outcome =>
    cases hy : y state with
    | none =>
      rw [hx, hy] at hstate
      cases hstate
    | some outcome' =>
      rw [hx, hy] at hstate
      cases hstate with
      | some houtcome =>
        cases houtcome with
        | done state' hab =>
          rw [bind_of_done hx, bind_of_done hy]
          exact hnext _ _ hab state'
        | halted state' =>
          rw [bind_of_halted hx, bind_of_halted hy]
          exact .some (.halted state')

theorem ofOption {a : Option α} {b : Option β} (h : Option.Rel R a b) :
    Rel R (ofOption a : Comp State α) (ofOption b) := by
  cases h with
  | none => exact undefined
  | some hab => exact pure hab

theorem repeatWith {R : α → β → Prop} {step : α → Comp State (ForInStep α)}
    {step' : β → Comp State (ForInStep β)}
    (hstep : ∀ a b, R a b → Rel (StepRel R) (step a) (step' b)) (bound : Nat) :
    ∀ {a : α} {b : β}, R a b → Rel R (repeatWith step bound a) (repeatWith step' bound b) := by
  induction bound with
  | zero => exact fun _ => undefined
  | succ bound ih =>
    intro a b hab
    rw [Comp.repeatWith, Comp.repeatWith]
    refine (hstep a b hab).bind fun next next' hnext => ?_
    cases hnext with
    | done h => exact pure h
    | yield h => exact ih h

end Rel

/-- Computations that are related by equality are equal. -/
theorem rel_eq {x y : Comp State α} : Rel Eq x y ↔ x = y := by
  constructor
  · intro h
    funext state
    have hstate := h state
    generalize x state = outcome at hstate ⊢
    generalize y state = outcome' at hstate ⊢
    cases hstate with
    | none => rfl
    | some houtcome =>
      cases houtcome with
      | done state' hab => rw [hab]
      | halted state' => rfl
  · rintro rfl state
    cases x state with
    | none => exact .none
    | some outcome =>
      cases outcome with
      | done a state' => exact .some (.done state' rfl)
      | halted state' => exact .some (.halted state')

/-! ## What values satisfy -/

/-- The value that the computation ends with, if it does, satisfies `P`. -/
def Ensures (P : α → Prop) (x : Comp State α) : Prop :=
  ∀ state a state', x state = some (.done a state') → P a

/-- What a computation ensures can be added to how it is related to another one. -/
theorem Rel.and_right {R : α → β → Prop} {P : β → Prop} {x : Comp State α} {y : Comp State β}
    (h : Rel R x y) (hy : Ensures P y) : Rel (fun a b => R a b ∧ P b) x y := by
  intro state
  have hstate := h state
  have hensures := hy state
  generalize x state = outcome at hstate ⊢
  generalize y state = outcome' at hstate hensures ⊢
  cases hstate with
  | none => exact .none
  | some houtcome =>
    cases houtcome with
    | done state' hab => exact .some (.done state' ⟨hab, hensures _ _ rfl⟩)
    | halted state' => exact .some (.halted state')

namespace Ensures

variable {P : α → Prop} {Q : β → Prop} {x : Comp State α}

theorem pure {a : α} (h : P a) : Ensures P (pure a : Comp State α) := by
  intro state b state' heq
  cases heq
  exact h

theorem undefined : Ensures P (undefined : Comp State α) := by
  intro state b state' heq
  cases heq

theorem trivial (x : Comp State α) : Ensures (fun _ => True) x :=
  fun _ _ _ _ => True.intro

theorem bind {next : α → Comp State β} (h : Ensures P x) (hnext : ∀ a, P a → Ensures Q (next a)) :
    Ensures Q (x >>= next) := by
  intro state b state' heq
  rcases bind_eq_some.mp heq with ⟨a, between, hx, heq⟩ | ⟨between, hx, heq⟩
  · exact hnext a (h state a between hx) between b state' heq
  · cases heq

theorem ofOption {a : Option α} (h : ∀ b, a = some b → P b) :
    Ensures P (ofOption a : Comp State α) := by
  cases a with
  | none => exact undefined
  | some b => exact pure (h b rfl)

theorem repeatWith {step : α → Comp State (ForInStep α)}
    (hstep : ∀ a, P a → Ensures (fun next => P next.value) (step a)) (bound : Nat) :
    ∀ {a : α}, P a → Ensures P (repeatWith step bound a) := by
  induction bound with
  | zero => exact fun _ => undefined
  | succ bound ih =>
    intro a ha
    rw [Comp.repeatWith]
    refine (hstep a ha).bind fun next hnext => ?_
    cases next with
    | done b => exact pure hnext
    | yield b => exact ih hnext

end Ensures

/-! ## Limits -/

/-- Each computation has the outcomes of the one before it, and the outcomes of `y` are those that
they have in the end. -/
structure Tends (x : Nat → Comp State α) (y : Comp State α) : Prop where
  ascends : ∀ n state outcome, x n state = some outcome → x (n + 1) state = some outcome
  limit : ∀ state outcome, y state = some outcome ↔ ∃ n, x n state = some outcome

namespace Tends

variable {x : Nat → Comp State α} {y z : Comp State α}

theorem mono (h : Tends x y) {m n : Nat} (hmn : m ≤ n) {state : State} {outcome : Outcome State α}
    (hm : x m state = some outcome) : x n state = some outcome := by
  induction hmn with
  | refl => exact hm
  | step _ ih => exact h.ascends _ _ _ ih

theorem le (h : Tends x y) (n : Nat) {state : State} {outcome : Outcome State α}
    (hn : x n state = some outcome) : y state = some outcome :=
  (h.limit state outcome).mpr ⟨n, hn⟩

theorem unique (h : Tends x y) (h' : Tends x z) : y = z := by
  funext state
  refine Option.ext fun outcome => ?_
  rw [h.limit, h'.limit]

theorem const (y : Comp State α) : Tends (fun _ => y) y :=
  ⟨fun _ _ _ => id, fun _ _ => ⟨fun h => ⟨0, h⟩, fun ⟨_, h⟩ => h⟩⟩

theorem bind {next : Nat → α → Comp State β} {last : α → Comp State β} (h : Tends x y)
    (hnext : ∀ a, Tends (fun n => next n a) (last a)) :
    Tends (fun n => x n >>= next n) (y >>= last) := by
  constructor
  · intro n state outcome heq
    rcases bind_eq_some.mp heq with ⟨a, state', hx, heq⟩ | ⟨state', hx, heq⟩
    · exact bind_eq_some.mpr
        (Or.inl ⟨a, state', h.ascends n _ _ hx, (hnext a).ascends n _ _ heq⟩)
    · exact bind_eq_some.mpr (Or.inr ⟨state', h.ascends n _ _ hx, heq⟩)
  · intro state outcome
    constructor
    · intro heq
      rcases bind_eq_some.mp heq with ⟨a, state', hy, heq⟩ | ⟨state', hy, heq⟩
      · obtain ⟨m, hm⟩ := (h.limit _ _).mp hy
        obtain ⟨n, hn⟩ := ((hnext a).limit _ _).mp heq
        refine ⟨max m n, bind_eq_some.mpr (Or.inl ⟨a, state', ?_, ?_⟩)⟩
        · exact h.mono (Nat.le_max_left m n) hm
        · exact (hnext a).mono (Nat.le_max_right m n) hn
      · obtain ⟨m, hm⟩ := (h.limit _ _).mp hy
        exact ⟨m, bind_eq_some.mpr (Or.inr ⟨state', hm, heq⟩)⟩
    · rintro ⟨n, heq⟩
      rcases bind_eq_some.mp heq with ⟨a, state', hx, heq⟩ | ⟨state', hx, heq⟩
      · exact bind_eq_some.mpr (Or.inl ⟨a, state', h.le n hx, (hnext a).le n heq⟩)
      · exact bind_eq_some.mpr (Or.inr ⟨state', h.le n hx, heq⟩)

theorem ite {c : Prop} [Decidable c] {x' : Nat → Comp State α} {y' : Comp State α} (h : Tends x y)
    (h' : Tends x' y') : Tends (fun n => if c then x n else x' n) (if c then y else y') := by
  by_cases hc : c
  · simpa only [if_pos hc] using h
  · simpa only [if_neg hc] using h'

theorem tail (h : Tends x y) : Tends (fun n => x (n + 1)) y := by
  refine ⟨fun n => h.ascends (n + 1), fun state outcome => ?_⟩
  rw [h.limit]
  constructor
  · rintro ⟨n, hn⟩
    exact ⟨n, h.ascends n _ _ hn⟩
  · rintro ⟨n, hn⟩
    exact ⟨n + 1, hn⟩

/-- A computation with fewer outcomes may be put in front of a sequence. -/
theorem shift (h : ∀ state outcome, x 0 state = some outcome → x 1 state = some outcome)
    (h' : Tends (fun n => x (n + 1)) y) : Tends x y := by
  constructor
  · intro n
    cases n with
    | zero => exact h
    | succ n => exact h'.ascends n
  · intro state outcome
    rw [h'.limit]
    constructor
    · rintro ⟨n, hn⟩
      exact ⟨n + 1, hn⟩
    · rintro ⟨n, hn⟩
      cases n with
      | zero => exact ⟨0, h _ _ hn⟩
      | succ n => exact ⟨n, hn⟩

/-- Limits of related computations are related. -/
theorem rel {R : α → β → Prop} {x' : Nat → Comp State β} {y' : Comp State β} (h : Tends x y)
    (h' : Tends x' y') (hrel : ∀ n, Rel R (x n) (x' n)) : Rel R y y' := by
  intro state
  cases hy : y state with
  | some outcome =>
    obtain ⟨n, hn⟩ := (h.limit _ _).mp hy
    have hstate := hrel n state
    rw [hn] at hstate
    cases hx' : x' n state with
    | none =>
      rw [hx'] at hstate
      cases hstate
    | some outcome' =>
      rw [hx'] at hstate
      rw [h'.le n hx']
      exact hstate
  | none =>
    cases hy' : y' state with
    | none => exact .none
    | some outcome' =>
      obtain ⟨n, hn⟩ := (h'.limit _ _).mp hy'
      have hstate := hrel n state
      rw [hn] at hstate
      cases hx : x n state with
      | none =>
        rw [hx] at hstate
        cases hstate
      | some outcome => exact absurd (h.le n hx) (by simp [hy])

theorem ensures {P : α → Prop} (h : Tends x y) (hx : ∀ n, Ensures P (x n)) : Ensures P y := by
  intro state a state' heq
  obtain ⟨n, hn⟩ := (h.limit _ _).mp heq
  exact hx n state a state' hn

theorem repeatWith {step : Nat → α → Comp State (ForInStep α)} {last : α → Comp State (ForInStep α)}
    (h : ∀ a, Tends (fun n => step n a) (last a)) (bound : Nat) :
    ∀ a, Tends (fun n => repeatWith (step n) bound a) (repeatWith last bound a) := by
  induction bound with
  | zero => exact fun _ => const undefined
  | succ bound ih =>
    intro a
    refine (h a).bind fun next => ?_
    cases next with
    | done b => exact const (pure b)
    | yield b => exact ih b

end Tends

open Classical in
/-- What a sequence of computations tends to, if each has the outcomes of the one before it. -/
noncomputable def limit (x : Nat → Comp State α) : Comp State α := fun state =>
  if h : ∃ n, (x n state).isSome then x h.choose state else none

theorem tends_limit {x : Nat → Comp State α}
    (h : ∀ n state outcome, x n state = some outcome → x (n + 1) state = some outcome) :
    Tends x (limit x) := by
  have hmono : ∀ {m n : Nat}, m ≤ n → ∀ {state outcome}, x m state = some outcome →
      x n state = some outcome := by
    intro m n hmn state outcome hm
    induction hmn with
    | refl => exact hm
    | step _ ih => exact h _ _ _ ih
  refine ⟨h, fun state outcome => ?_⟩
  by_cases hsome : ∃ n, (x n state).isSome
  · rw [limit, dif_pos hsome]
    refine ⟨fun heq => ⟨_, heq⟩, ?_⟩
    rintro ⟨n, hn⟩
    obtain ⟨other, hother⟩ := Option.isSome_iff_exists.mp hsome.choose_spec
    have hmax := hmono (Nat.le_max_left n hsome.choose) hn
    rw [hmono (Nat.le_max_right n hsome.choose) hother] at hmax
    rw [hother, hmax]
  · rw [limit, dif_neg hsome]
    constructor
    · intro heq
      cases heq
    · rintro ⟨n, hn⟩
      exact absurd ⟨n, by rw [hn]; rfl⟩ hsome

/-- More steps may be made, and each may have more outcomes. -/
theorem repeatWith_mono {step step' : α → Comp State (ForInStep α)}
    (h : ∀ a state outcome, step a state = some outcome → step' a state = some outcome) {m : Nat} :
    ∀ {n : Nat}, m ≤ n → ∀ {a : α} {state : State} {outcome : Outcome State α},
      repeatWith step m a state = some outcome → repeatWith step' n a state = some outcome := by
  induction m with
  | zero =>
    intro n _ a state outcome heq
    cases heq
  | succ m ih =>
    intro n hmn a state outcome heq
    obtain ⟨n, rfl⟩ : ∃ k, n = k + 1 := ⟨n - 1, by omega⟩
    rw [repeatWith] at heq ⊢
    rcases bind_eq_some.mp heq with ⟨next, state', hstep, heq⟩ | ⟨state', hstep, heq⟩
    · refine bind_eq_some.mpr (Or.inl ⟨next, state', h a _ _ hstep, ?_⟩)
      cases next with
      | done b => exact heq
      | yield b => exact ih (by omega) heq
    · exact bind_eq_some.mpr (Or.inr ⟨state', h a _ _ hstep, heq⟩)

/-- Steps are repeated until one says that it is the last. -/
noncomputable def loop (step : α → Comp State (ForInStep α)) (a : α) : Comp State α :=
  limit fun bound => repeatWith step bound a

theorem tends_loop (step : α → Comp State (ForInStep α)) (a : α) :
    Tends (fun bound => repeatWith step bound a) (loop step a) :=
  tends_limit fun bound _ _ => repeatWith_mono (fun _ _ _ => id) (Nat.le_succ bound)

theorem repeatWith_le_loop {step step' : α → Comp State (ForInStep α)}
    (h : ∀ a state outcome, step a state = some outcome → step' a state = some outcome)
    {bound : Nat} {a : α} {state : State} {outcome : Outcome State α}
    (heq : repeatWith step bound a state = some outcome) : loop step' a state = some outcome :=
  (tends_loop step' a).le bound (repeatWith_mono h (Nat.le_refl bound) heq)

theorem Rel.loop {R : α → β → Prop} {step : α → Comp State (ForInStep α)}
    {step' : β → Comp State (ForInStep β)}
    (hstep : ∀ a b, R a b → Rel (StepRel R) (step a) (step' b)) {a : α} {b : β} (hab : R a b) :
    Rel R (loop step a) (loop step' b) :=
  (tends_loop step a).rel (tends_loop step' b) fun bound => Rel.repeatWith hstep bound hab

theorem Ensures.loop {P : α → Prop} {step : α → Comp State (ForInStep α)}
    (hstep : ∀ a, P a → Ensures (fun next => P next.value) (step a)) {a : α} (ha : P a) :
    Ensures P (loop step a) :=
  (tends_loop step a).ensures fun bound => Ensures.repeatWith hstep bound ha

/-- The bound on the number of steps may grow together with the outcomes of the steps. -/
theorem Tends.loop {step : Nat → α → Comp State (ForInStep α)}
    {last : α → Comp State (ForInStep α)} (h : ∀ a, Tends (fun n => step n a) (last a)) (a : α) :
    Tends (fun n => Comp.repeatWith (step n) n a) (loop last a) := by
  have hle : ∀ n b state outcome, step n b state = some outcome → last b state = some outcome :=
    fun n b _ _ => (h b).le n
  have hmono : ∀ {m n : Nat}, m ≤ n → ∀ b state outcome, step m b state = some outcome →
      step n b state = some outcome := fun hmn b _ _ => (h b).mono hmn
  constructor
  · intro n state outcome
    exact repeatWith_mono (hmono (Nat.le_succ n)) (Nat.le_succ n)
  · intro state outcome
    rw [(tends_loop last a).limit]
    constructor
    · rintro ⟨bound, heq⟩
      obtain ⟨n, hn⟩ := ((Tends.repeatWith h bound a).limit _ _).mp heq
      refine ⟨max n bound, ?_⟩
      exact repeatWith_mono (hmono (Nat.le_max_left n bound)) (Nat.le_max_right n bound) hn
    · rintro ⟨n, heq⟩
      exact ⟨n, repeatWith_mono (hle n) (Nat.le_refl n) heq⟩

theorem Tends.unbounded {step : Nat → α → Comp State (ForInStep α)}
    {last : α → Comp State (ForInStep α)} (h : ∀ a, Tends (fun n => step n a) (last a)) (a : α) :
    Tends (fun n => Comp.loop (step n) a) (Comp.loop last a) := by
  constructor
  · intro n state outcome
    rw [(tends_loop (step n) a).limit]
    rintro ⟨bound, heq⟩
    exact repeatWith_le_loop (fun b => (h b).ascends n) heq
  · intro state outcome
    constructor
    · intro heq
      obtain ⟨n, hn⟩ := ((Tends.loop h a).limit _ _).mp heq
      exact ⟨n, repeatWith_le_loop (fun _ _ _ => id) hn⟩
    · rintro ⟨n, heq⟩
      obtain ⟨bound, hbound⟩ := ((tends_loop (step n) a).limit _ _).mp heq
      exact repeatWith_le_loop (fun b _ _ => (h b).le n) hbound

end Comp

end YulInline
