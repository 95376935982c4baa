import CornScript.Proofs.Eval.Coupling
import CornScript.Proofs.Eval.Recount

/-! # Cutting a program

The statements of a program may be run in several runs, one after the other: the statement counter
goes on from one to the next, and each statement is followed by its own collection. What has been
written between two runs makes no difference to what they do, unless the output is full.
-/

namespace CornScript

namespace Output

variable {o o' : Output} {b : Bytes}

def extend (o : Output) (ws : List Bytes) : Output :=
  { o with writes := ws ++ o.writes }

theorem contents_extend (o : Output) (ws : List Bytes) :
    (o.extend ws).contents = o.contents ++ ws.reverse.flatten := by
  simp [contents, extend]

theorem size_eq_length (o : Output) : o.size = o.contents.length := by
  rw [size, contents, List.length_flatten, List.map_reverse, List.sum_reverse, List.sum_eq_foldl,
    List.foldl_map]

theorem size_extend (o : Output) (ws : List Bytes) :
    (o.extend ws).size = o.size + ws.reverse.flatten.length := by
  rw [size_eq_length, size_eq_length, contents_extend, List.length_append]

/-- The same limit, and no more has been written to `o'` than to `o`. -/
structure Covers (o o' : Output) : Prop where
  limit : o'.limit = o.limit
  size : o'.size ≤ o.size

theorem Covers.refl (o : Output) : o.Covers o := ⟨rfl, Nat.le_refl _⟩

theorem Covers.extend (h : o.Covers o') (ws : List Bytes) :
    (o.extend ws).Covers (o'.extend ws) where
  limit := h.limit
  size := by
    have hsize := h.size
    rw [size_extend, size_extend]
    omega

theorem Covers.append (h : o.Covers o') (b : Bytes) : (o.append b).Covers o' where
  limit := h.limit
  size := by
    have hsize := h.size
    change o'.size ≤ (o.extend [b]).size
    rw [size_extend]
    omega

theorem Covers.write? (h : o.Covers o') (hw : o.write? b = some (o.append b)) :
    o'.write? b = some (o'.append b) := by
  have hsize := h.size
  unfold Output.write? at hw ⊢
  rw [h.limit]
  cases hl : o.limit with
  | none => rfl
  | some n =>
    rw [hl] at hw
    dsimp only at hw ⊢
    split at hw
    · rw [if_pos (by omega)]
    · cases hw

theorem write?_of_unlimited (h : o.limit = none) (b : Bytes) : o.write? b = some (o.append b) := by
  simp only [Output.write?, h]

end Output

def Coupling.rebased {o o' : Output} (h : o.Covers o') : Coupling where
  move := id
  strict := True
  loud := False
  roomy := True
  outputs a a' := ∃ ws, a = o.extend ws ∧ a' = o'.extend ws
  write := by
    rintro _ _ a b ⟨ws, rfl, rfl⟩ hw
    obtain rfl := Output.eq_append_of_write? hw
    exact ⟨_, (h.extend ws).write? hw, b :: ws, rfl, rfl⟩
  full _ _ := .inr trivial

/-- The same for outputs without a limit, where both runs may write what they like. -/
def Coupling.unlimited {o o' : Output} (ho : o.limit = none) (ho' : o'.limit = none) :
    Coupling where
  move := id
  strict := True
  loud := False
  roomy := False
  outputs a a' := ∃ ws, a = o.extend ws ∧ a' = o'.extend ws
  write := by
    rintro _ _ a b ⟨ws, rfl, rfl⟩ hw
    obtain rfl := Output.eq_append_of_write? hw
    exact ⟨_, Output.write?_of_unlimited (o := o'.extend ws) ho' b, b :: ws, rfl, rfl⟩
  full := by
    rintro _ _ b ⟨ws, rfl, rfl⟩ hw
    rw [Output.write?_of_unlimited (o := o.extend ws) ho b] at hw
    cases hw

namespace State

variable {s t : State}

/-- The same apart from the log and from what has been written. -/
structure Shadows (s t : State) : Prop where
  store : t.store = s.store
  heap : t.heap = s.heap
  handles : t.handles = s.handles
  statements : t.statements = s.statements
  threshold : t.threshold = s.threshold
  output : s.output.Covers t.output

theorem Shadows.refl (s : State) : s.Shadows s :=
  ⟨rfl, rfl, rfl, rfl, rfl, .refl s.output⟩

theorem Shadows.relates (h : s.Shadows t) {C : Coupling} (hmove : C.move = id) (hloud : ¬ C.loud)
    (ho : C.outputs s.output t.output) : C.Relates s t where
  store := by rw [hmove, s.store.moved_id, h.store]
  output := ho
  heap _ := h.heap
  handles _ := h.handles
  statements _ := h.statements
  threshold _ := h.threshold
  log _ hl := absurd hl hloud

theorem Shadows.of_relates {C : Coupling} (h : C.Relates s t) (hmove : C.move = id) (hs : C.strict)
    (ho : s.output.Covers t.output) : s.Shadows t where
  store := by rw [h.store, hmove, s.store.moved_id]
  heap := h.heap hs
  handles := h.handles hs
  statements := h.statements hs
  threshold := h.threshold hs
  output := ho

theorem Shadows.runAll (h : s.Shadows t) {fuel : Nat} {scope : ScopeId} {last r : Ref}
    {body : List Stmt} {u : State}
    (hr : Program.runAll (Expr.eval fuel scope) scope last body s = .ok r u) :
    ∃ v ws, Program.runAll (Expr.eval fuel scope) scope last body t = .ok r v ∧ u.Shadows v ∧
      u.output = s.output.extend ws ∧ v.output = t.output.extend ws := by
  have hbody : body.map (Stmt.moved id) = body := by
    rw [funext Stmt.moved_id, List.map_id']
  have hev (e : Expr) : Eval.Follows (.rebased h.output) (Expr.eval fuel scope e)
      (Expr.eval fuel scope (e.moved id)) := .eval (.inl rfl) scope e
  have hends := (Eval.Follows.program hev scope last body).ends
    (h.relates (C := .rebased h.output) rfl id ⟨[], rfl, rfl⟩)
  change Eval.SameEnd _ _ (Program.runAll _ _ _ (body.map (Stmt.moved id)) t) at hends
  rw [hr, hbody] at hends
  generalize Program.runAll (Expr.eval fuel scope) scope last body t = y at hends
  cases hends with
  | @ok _ _ v h' =>
    obtain ⟨ws, hu, hv⟩ := h'.output
    exact ⟨v, ws, rfl, .of_relates h' rfl trivial (hu ▸ hv ▸ h.output.extend ws), hu, hv⟩

/-- If the output has no limit, a program ends in the same way whatever has been written before. -/
theorem Shadows.eval (h : s.Shadows t) (hlimit : s.output.limit = none) (fuel : Nat)
    (scope : ScopeId) (p : Program) : ∃ ws,
      ((Node.program p).eval fuel scope s).1 = ((Node.program p).eval fuel scope t).1 ∧
      ((Node.program p).eval fuel scope s).2.Shadows ((Node.program p).eval fuel scope t).2 ∧
      ((Node.program p).eval fuel scope s).2.output = s.output.extend ws ∧
      ((Node.program p).eval fuel scope t).2.output = t.output.extend ws := by
  have hp : p.moved id = p := by
    rw [Program.moved, funext Stmt.moved_id, List.map_id']
  have hrelates := h.relates (C := .unlimited hlimit (h.output.limit.trans hlimit)) rfl id
    ⟨[], rfl, rfl⟩
  obtain ⟨houtcome, hstate⟩ := hrelates.eval id (.inl rfl) scope p fun hs => absurd trivial hs
  change _ = ((Node.program (p.moved id)).eval fuel scope t).1 at houtcome
  change Coupling.Relates _ _ ((Node.program (p.moved id)).eval fuel scope t).2 at hstate
  rw [hp] at houtcome hstate
  obtain ⟨ws, hu, hv⟩ := hstate.output
  exact ⟨ws, houtcome, .of_relates hstate rfl trivial (hu ▸ hv ▸ h.output.extend ws), hu, hv⟩

end State

namespace Program

variable {ev : Expr → Eval Ref} {scope : ScopeId}

theorem runAll_append (last : Ref) (body body' : List Stmt) :
    runAll ev scope last (body ++ body') =
      runAll ev scope last body >>= fun r => runAll ev scope r body' := by
  induction body generalizing last with
  | nil => rfl
  | cons st rest ih => simp only [List.cons_append, runAll, ih, bind_assoc]

theorem exists_runAll {last r : Ref} {body : List Stmt} {s t : State}
    (h : runAll ev scope last body s = .ok r t) (last' : Ref) :
    ∃ r', runAll ev scope last' body s = .ok r' t := by
  cases body with
  | nil =>
    cases h
    exact ⟨last', rfl⟩
  | cons st rest => exact ⟨r, h⟩

end Program

end CornScript
