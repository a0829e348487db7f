import YulInline.Proofs.FreshNames

/-!
# What a supply has answered

A supply is asked for fresh names, told to take names into use, and asked which names are in use, in
any order and as often as one likes. `NameSupply.history` is what can be seen of this from outside:
the requests, each with its answer. An answer follows from what came before it. The names in use at
any point are those at the start, those reserved since and those given out since (`Event.taken`); a
fresh name is the first candidate for its stem that is not among them.

Stems can share candidates, as `a` and `a_1` do. So what a request gets may depend on all earlier
ones, and that no name is given out twice is shown of a history as a whole.
-/

namespace YulInline

namespace NameSupply

/-! ## Requests and answers -/

/-- What a supply can be asked for. -/
inductive Request where
  /-- A fresh name for a stem. -/
  | fresh (stem : String)
  /-- To take a name into use. -/
  | reserve (name : String)
  /-- Whether a name is in use. -/
  | isUsed (name : String)
deriving DecidableEq, Repr

/-- A request together with its answer. -/
inductive Event where
  /-- For the stem the name was given out. -/
  | gave (stem name : String)
  /-- The name was taken into use. -/
  | reserved (name : String)
  /-- Whether the name is in use was answered with `answer`. -/
  | told (name : String) (answer : Bool)
deriving DecidableEq, Repr

namespace Event

/-- The request that was answered. -/
def request : Event → Request
  | .gave stem _ => .fresh stem
  | .reserved name => .reserve name
  | .told name _ => .isUsed name

/-- The name that was given out. -/
def given : Event → List String
  | .gave _ name => [name]
  | .reserved _ | .told .. => []

/-- The name that came into use. -/
def taken : Event → List String
  | .gave _ name | .reserved name => [name]
  | .told .. => []

end Event

/-- The answer to a request, and the supply after it. -/
def answer (supply : NameSupply) : Request → Event × NameSupply
  | .fresh stem => (.gave stem (supply.fresh stem).1, (supply.fresh stem).2)
  | .reserve name => (.reserved name, supply.reserve name)
  | .isUsed name => (.told name (supply.isUsed name), supply)

/-- The answers to requests that are made one after the other. -/
def history (supply : NameSupply) : List Request → List Event
  | [] => []
  | request :: requests =>
    (supply.answer request).1 :: (supply.answer request).2.history requests

/-! ## Right answers -/

/-- Where the names `used` are in use, `name` is the first candidate for `stem` that can be given
out: it is not empty and not in use, and each candidate before it is one or the other. -/
def FirstUnused (used : List String) (stem name : String) : Prop :=
  ∃ k, name = candidate stem k ∧ name ≠ "" ∧ name ∉ used ∧
    ∀ i < k, candidate stem i = "" ∨ candidate stem i ∈ used

/-- The answer is right where the names `used` are in use. -/
def Event.Right (used : List String) : Event → Prop
  | .gave stem name => FirstUnused used stem name
  | .reserved _ => True
  | .told name answer => answer = true ↔ name ∈ used

/-- Exactly the names in a list are in use. -/
def Uses (supply : NameSupply) (used : List String) : Prop :=
  ∀ name, supply.isUsed name = true ↔ name ∈ used

theorem uses_ofList (names : List String) : (ofList names).Uses names := by
  intro name
  rw [isUsed_ofList, List.contains_iff_mem]

theorem Uses.isFree_iff {supply : NameSupply} {used : List String} (h : supply.Uses used)
    (name : String) : supply.isFree name = true ↔ name ≠ "" ∧ name ∉ used := by
  rw [NameSupply.isFree_iff, ← Bool.not_eq_true, h name]

/-- A fresh name is the first candidate that can be given out. -/
theorem Uses.firstUnused {supply : NameSupply} {used : List String} (h : supply.Uses used)
    (stem : String) : FirstUnused used stem (supply.fresh stem).1 := by
  obtain ⟨k, heq, hfree, hbefore⟩ := fresh_eq_candidate supply stem
  obtain ⟨hne, hnew⟩ := (h.isFree_iff _).mp hfree
  refine ⟨k, heq, heq ▸ hne, heq ▸ hnew, fun i hi => ?_⟩
  have hnot : ¬ (candidate stem i ≠ "" ∧ candidate stem i ∉ used) := by
    rw [← h.isFree_iff, hbefore i hi]
    exact Bool.false_ne_true
  tauto

/-- Every request is answered, and rightly; what comes into use by it is in use from then on. -/
theorem Uses.answer {supply : NameSupply} {used : List String} (h : supply.Uses used)
    (request : Request) :
    (supply.answer request).1.request = request ∧ (supply.answer request).1.Right used ∧
      (supply.answer request).2.Uses (used ++ (supply.answer request).1.taken) := by
  cases request with
  | fresh stem =>
    refine ⟨rfl, h.firstUnused stem, fun name => ?_⟩
    rw [NameSupply.answer, isUsed_fresh, Bool.or_eq_true, h name, beq_iff_eq, Event.taken,
      List.mem_append, List.mem_singleton, eq_comm, or_comm]
  | reserve other =>
    refine ⟨rfl, trivial, fun name => ?_⟩
    rw [NameSupply.answer, isUsed_reserve, Bool.or_eq_true, h name, beq_iff_eq, Event.taken,
      List.mem_append, List.mem_singleton, eq_comm, or_comm]
  | isUsed name =>
    refine ⟨rfl, h name, ?_⟩
    rw [NameSupply.answer, Event.taken, List.append_nil]
    exact h

/-! ## Histories -/

variable {supply : NameSupply} {used : List String}

/-- No request goes unanswered. -/
theorem Uses.history_requests (h : supply.Uses used) (requests : List Request) :
    (supply.history requests).map Event.request = requests := by
  induction requests generalizing supply used with
  | nil => rfl
  | cons request requests ih =>
    obtain ⟨hrequest, -, hafter⟩ := h.answer request
    rw [history, List.map_cons, hrequest, ih hafter]

/-- Every answer in a history is right at its time. -/
theorem Uses.history_right (h : supply.Uses used) (requests : List Request) :
    ∀ {earlier : List Event} {event : Event} {later : List Event},
      supply.history requests = earlier ++ event :: later →
      event.Right (used ++ earlier.flatMap Event.taken) := by
  induction requests generalizing supply used with
  | nil =>
    intro earlier event later heq
    simp [history] at heq
  | cons request requests ih =>
    intro earlier event later heq
    obtain ⟨-, hright, hafter⟩ := h.answer request
    rw [history] at heq
    cases earlier with
    | nil =>
      obtain ⟨rfl, -⟩ := List.cons.inj heq
      rwa [List.flatMap_nil, List.append_nil]
    | cons first earlier =>
      obtain ⟨rfl, hlater⟩ := List.cons.inj heq
      rw [List.flatMap_cons, ← List.append_assoc]
      exact ih hafter hlater

/-- What is given out in a history was not in use in front of it. -/
theorem Uses.not_mem_of_given (h : supply.Uses used) {requests : List Request} {name : String}
    (hname : name ∈ (supply.history requests).flatMap Event.given) : name ∉ used := by
  obtain ⟨event, hevent, hgiven⟩ := List.mem_flatMap.mp hname
  obtain ⟨earlier, later, heq⟩ := List.append_of_mem hevent
  have hright := h.history_right requests heq
  cases event with
  | gave stem other =>
    obtain rfl := List.mem_singleton.mp hgiven
    obtain ⟨-, -, -, hnew, -⟩ := hright
    exact fun hmem => hnew (List.mem_append_left _ hmem)
  | _ => cases hgiven

/-- No name is given out twice. -/
theorem Uses.nodup_given (h : supply.Uses used) (requests : List Request) :
    ((supply.history requests).flatMap Event.given).Nodup := by
  induction requests generalizing supply used with
  | nil => exact List.nodup_nil
  | cons request requests ih =>
    obtain ⟨-, -, hafter⟩ := h.answer request
    rw [history, List.flatMap_cons]
    refine List.nodup_append'.mpr ⟨?_, ih hafter, fun name hname hlater => ?_⟩
    · cases request <;> simp [NameSupply.answer, Event.given]
    · refine hafter.not_mem_of_given hlater (List.mem_append_right _ ?_)
      cases request with
      | fresh stem => exact hname
      | _ => cases hname

/-- The search for a fresh name ends by itself: a greater bound on it does not matter. -/
theorem firstFree_eq_fresh (supply : NameSupply) (stem : String) :
    ∃ bound, ∀ fuel ≥ bound, supply.firstFree stem fuel 0 = (supply.fresh stem).1 := by
  obtain ⟨k, heq, hfree, hbefore⟩ := fresh_eq_candidate supply stem
  refine ⟨k, fun fuel hfuel => ?_⟩
  obtain ⟨j, -, hj, hfound, hskipped, hstop⟩ := firstFree_eq_candidate supply stem fuel 0
  rcases Nat.lt_trichotomy j k with hlt | rfl | hgt
  · -- The search would have stopped at a candidate that is not free.
    have hfree' := hstop (by omega)
    rw [hbefore j hlt] at hfree'
    cases hfree'
  · rw [hfound, heq]
  · have hnot := hskipped k (Nat.zero_le k) hgt
    rw [hfree] at hnot
    cases hnot

/-- A candidate begins with its stem. -/
theorem candidate_eq_append (stem : String) (k : Nat) : ∃ rest, candidate stem k = stem ++ rest := by
  cases k with
  | zero => exact ⟨"", by rw [candidate, String.append_empty]⟩
  | succ k => exact ⟨"_" ++ toString (k + 1), by rw [candidate, String.append_assoc]⟩

/-- Whatever a supply is asked for, every request is answered, and the answers are right where the
names of the seed and those that came into use before are in use: every search for a fresh name
ends, at the first candidate that can be given out, and whether a name is in use is told truly.
Hence the names that are given out are pairwise different, not empty and begin with their stems, and
none of them is in the seed or was reserved before. -/
theorem history_gives_first_unused (seed : List String) (requests : List Request) :
    (∀ (supply : NameSupply) (stem : String),
      ∃ bound, ∀ fuel ≥ bound, supply.firstFree stem fuel 0 = (supply.fresh stem).1) ∧
    ((ofList seed).history requests).map Event.request = requests ∧
    (∀ earlier event later, (ofList seed).history requests = earlier ++ event :: later →
      event.Right (seed ++ earlier.flatMap Event.taken)) ∧
    (((ofList seed).history requests).flatMap Event.given).Nodup ∧
    ∀ earlier stem name later,
      (ofList seed).history requests = earlier ++ .gave stem name :: later →
      name ≠ "" ∧ (∃ rest, name = stem ++ rest) ∧ name ∉ seed ∧ .reserved name ∉ earlier := by
  have hseed := uses_ofList seed
  refine ⟨firstFree_eq_fresh, hseed.history_requests requests,
    fun _ _ _ => hseed.history_right requests, hseed.nodup_given requests, ?_⟩
  intro earlier stem name later heq
  obtain ⟨k, hname, hne, hnew, -⟩ := hseed.history_right requests heq
  rw [List.mem_append, not_or] at hnew
  refine ⟨hne, hname ▸ candidate_eq_append stem k, hnew.1, fun hreserved => hnew.2 ?_⟩
  exact List.mem_flatMap.mpr ⟨_, hreserved, List.mem_singleton_self name⟩

/-- Stems that share candidates. -/
example :
    (ofList ["a"]).history
      [.fresh "a_1", .fresh "a", .reserve "a_3", .fresh "a", .isUsed "a_5", .fresh ""] =
      [.gave "a_1" "a_1", .gave "a" "a_2", .reserved "a_3", .gave "a" "a_4", .told "a_5" false,
        .gave "" "_1"] := by
  decide +kernel

end NameSupply

end YulInline
