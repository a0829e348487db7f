import YulInline.Inliner.Visit

/-!
# Inlining a module

The top-level blocks are expanded in order. A function is expanded when a call demands it, or at the
end if none did, and once only: it stops being pending before its body is visited, so a call that
leads back to it finds nothing to do.
-/

namespace YulInline

namespace InlineM

/-- Expands the body of a top-level block or function, which is that of `site`. The visit is given
as much fuel as there are statements in the body now, which is enough. -/
def expandBody (site : Site) (body : Block) : InlineM Unit :=
  site.visitBlock (Block.extent body) [] 0

/-- Has the body of a function expanded if it is pending. At most `fuel` bodies are expanded within
each other; since each of them stops being pending, the number of pending functions is enough. -/
def demandWith : (fuel : Nat) → String → InlineM Unit
  | 0, name => do
    let _ ← function name
  | fuel + 1, name => do
    let function ← function name
    let inliner ← get
    if inliner.isPending name then
      set { inliner with pending := inliner.pending.erase name }
      expandBody ⟨inliner.position name, name, demandWith fuel⟩ function.body

/-- Has the body of a function expanded if it is pending, together with the bodies it depends on. -/
def demand (name : String) : InlineM Unit := do
  demandWith (← get).pending.length name

/-- Visits the statement at a position of the root block. Functions are left for calls to demand. -/
def visitTopLevel (stmt : Stmt) (position : Nat) : InlineM Unit :=
  match stmt with
  | .block body => expandBody ⟨position, "", demand⟩ body
  | .define _ => return ()
  | stmt => throw (.invalidTopLevel stmt.kind)

/-- Expands all top-level blocks, and then the functions that are still pending. -/
def expandModule : InlineM Unit := do
  (← get).module.zipIdx.forM fun (stmt, position) => visitTopLevel stmt position
  (← get).pending.forM demand

end InlineM

/-- Inlines a module: gives the expanded module and the names in use then. -/
def inline (module : Block) (names : NameSupply) : Except InlineError (Block × NameSupply) := do
  match InlineM.expandModule.run (← Inliner.ofModule? module names) with
  | .ok () inliner => return (inliner.module, inliner.names)
  | .error error _ => throw error

/-! ## What inlining gives -/

section Inline

variable {module : Block} {names : NameSupply} {start final : Inliner} {error : InlineError}

theorem inline_eq_ok (hstart : Inliner.ofModule? module names = .ok start)
    (hrun : InlineM.expandModule start = .ok () final) :
    inline module names = .ok (final.module, final.names) := by
  rw [inline, hstart]
  show Except.bind (.ok start) _ = _
  simp only [Except.bind, EStateM.run, hrun]
  rfl

theorem inline_eq_error (hstart : Inliner.ofModule? module names = .ok start)
    (hrun : InlineM.expandModule start = .error error final) :
    inline module names = .error error := by
  rw [inline, hstart]
  show Except.bind (.ok start) _ = _
  simp only [Except.bind, EStateM.run, hrun]
  rfl

theorem inline_eq_error_of_ofModule? (hstart : Inliner.ofModule? module names = .error error) :
    inline module names = .error error := by
  rw [inline, hstart]
  rfl

end Inline

end YulInline
