import CornScript.Proofs.Eval.Recount

/-! # Recorded evaluation is evaluation

A recorded evaluation has the result of the evaluation and tells all that happens in it. This is
shown for each part of the evaluator in turn, together with the invariant that holds on the way, and
then by induction on the depth of evaluation.
-/

namespace CornScript.Invariant

variable {I : Invariant} {scope : ScopeId} {s : State}

def Mirrors (I : Invariant) (scope : ScopeId) (ev : Expr → Recorded Ref) (ev' : Expr → Eval Ref) :
    Prop :=
  ∀ e s, I.holds s → I.home s scope → (I.strict → e.WellFormed) →
    I.Recounts scope s I.Value (ev e s) (ev' e s)

section Parts

variable {ev : Expr → Recorded Ref} {ev' : Expr → Eval Ref} (hev : I.Mirrors scope ev ev')

include hev

theorem Mirrors.all (es : List Expr) (hs : I.holds s) (hid : I.home s scope)
    (hw : I.strict → ∀ e ∈ es, e.WellFormed) :
    I.Recounts scope s I.Values (Recorded.all ev es s) (Eval.all ev' es s) := by
  induction es generalizing s with
  | nil => exact .pure hs nofun
  | cons e es ih =>
    rw [List.forall_mem_cons] at hw
    apply (hev e s hs hid fun h => (hw h).1).bind
    intro r t ht hr
    apply (ih ht.holds (ht.home hid) fun h => (hw h).2).bind
    intro rs u hu hrs
    apply Recounts.pure hu.holds
    intro r' hr'
    rcases List.mem_cons.mp hr' with rfl | hr'
    · exact hu.good hr
    · exact hrs r' hr'

variable (hI : I.Stable)

include hI

theorem Mirrors.pairs (count : Nat) (ks : List Expr) :
    ∀ {s : State} (index : Nat) (vs : List Expr) (d : Dict Ref), I.holds s → I.home s scope →
      I.Entries s d → (I.strict → Expr.Paired ks vs) →
      I.Recounts scope s I.Entries (Recorded.pairs ev count index ks vs d s)
        (Eval.pairs ev' count index ks vs d s) := by
  induction ks with
  | nil => exact fun index vs d hs hid hd _ => .pure hs hd
  | cons k ks ih =>
    intro s index vs d hs hid hd hw
    apply (hev k s hs hid fun h => (hw h).keys k List.mem_cons_self).bind
    intro key t ht _
    apply Recounts.read
    intro o _
    cases o with
    | string name =>
      cases vs with
      | nil => exact .defect ht.holds fun h => nomatch (hw h).length
      | cons v vs =>
        apply (hev v t ht.holds (ht.home hid) fun h => (hw h).values v List.mem_cons_self).bind
        intro value u hu hvalue
        apply ih (index + 1) vs _ hu.holds (hu.home (ht.home hid)) ?_ fun h => (hw h).tail
        intro k r hk
        rw [Dict.get?_insert] at hk
        split at hk
        · cases hk
          exact hvalue
        · exact hu.good (ht.good (hd k r hk))
    | _ => exact .leaf (hI.ends_fail ht.holds _) (.fail _)

end Parts

theorem recounts_count (hI : I.Stable) (hs : I.holds s) :
    I.Recounts scope s (fun _ _ => True) (Recorded.doing (fun _ => .count) Eval.count s)
      (Eval.count s) := by
  apply Recounts.doing
  · exact ⟨hI.count hs, trivial⟩
  · exact fun _ _ _ => rfl
  · rintro _ _ ⟨⟩
    exact ⟨⟨trivial, rfl⟩, (hI.count hs).holds, nofun, nofun⟩
  · nofun

theorem recounts_bind (hI : I.Stable) {r : Ref} (hs : I.holds s) (hid : I.home s scope)
    (hr : I.good s (.object r)) (name : Bytes) :
    I.Recounts scope s I.Value
      (Recorded.doing (fun _ => .bind scope name r) (Eval.bind scope name r) s)
      (Eval.bind scope name r s) := by
  have hends := hI.ends_bind hs hid hr name
  by_cases hb : (Builtin.ofName? name).isSome
  · have hfail : Eval.bind scope name r s = Eval.fail (.reserved name) s := by
      rw [Eval.bind, if_pos hb]
    apply Recounts.doing hends
    · exact fun _ _ _ => rfl
    · intro a t h
      rw [hfail] at h
      cases h
    · exact fun _ _ _ => .bind hb
  · have hrun : Eval.bind scope name r s = (do
        modify fun s => { s with store := s.store.bind scope name r }
        let o ← Eval.read r
        Eval.trace fun _ => text "eval let " ++ name ++ text " to " ++ o.inspect
        return r : Eval Ref) s := by
      rw [Eval.bind, if_neg hb]
    apply Recounts.doing hends
    · exact fun _ _ _ => rfl
    · intro a t h
      rw [h] at hends
      have hvalues : I.Values t [r] := fun r' hr' => List.mem_singleton.mp hr' ▸ hends.1.good hr
      have hproper : I.Proper ⟨.bind scope name r, t⟩ := by
        refine ⟨hends.1.holds, hvalues, ?_⟩
        rintro _ _ ⟨⟩
      rw [hrun] at h
      cases h
      exact ⟨⟨trivial, rfl⟩, hproper⟩
    · intro e t h
      rw [hrun] at h
      cases h

mutual

theorem Mirrors.stmt {ev : Expr → Recorded Ref} {ev' : Expr → Eval Ref}
    (hev : I.Mirrors scope ev ev') (hI : I.Stable) (st : Stmt) {s : State} (hs : I.holds s)
    (hid : I.home s scope) (hw : I.strict → st.WellFormed) :
    I.Recounts scope s I.Value (Recorded.stmt ev scope st s) (st.run ev' scope s) := by
  unfold Recorded.stmt Stmt.run
  cases st with
  | bind token target value =>
    apply (Recounts.traceFailure hI _ (hev value s hs hid fun h => (hw h).bound)).bind
    intro r t ht hr
    exact recounts_bind hI ht.holds (ht.home hid) hr _
  | give token value =>
    apply (hev value s hs hid fun h => (hw h).given).bind
    intro r t ht hr
    exact .give ht.holds hr
  | expr token value => exact hev value s hs hid fun h => (hw h).value
  | block b => exact hev.block hI b hs hid fun h => (hw h).inner

theorem Mirrors.block {ev : Expr → Recorded Ref} {ev' : Expr → Eval Ref}
    (hev : I.Mirrors scope ev ev') (hI : I.Stable) (b : Block) {s : State} (hs : I.holds s)
    (hid : I.home s scope) (hw : I.strict → b.WellFormed) :
    I.Recounts scope s I.Value (Recorded.block ev scope b s) (b.run ev' scope s) := by
  unfold Recorded.block Block.run
  cases b with
  | mk token body => exact hev.runAll hI body hs hid (hI.null hs) fun h => (hw h).body

theorem Mirrors.runAll {ev : Expr → Recorded Ref} {ev' : Expr → Eval Ref}
    (hev : I.Mirrors scope ev ev') (hI : I.Stable) (body : List Stmt) {s : State} {last : Ref}
    (hs : I.holds s) (hid : I.home s scope) (hl : I.good s (.object last))
    (hw : I.strict → ∀ st ∈ body, st.WellFormed) :
    I.Recounts scope s I.Value (Recorded.runAll ev scope last body s)
      (Stmt.runAll ev' scope last body s) := by
  unfold Recorded.runAll Stmt.runAll
  cases body with
  | nil => exact .pure hs hl
  | cons st rest =>
    rw [List.forall_mem_cons] at hw
    apply (recounts_count hI hs).bind
    intro _ t ht _
    apply (hev.stmt hI st ht.holds (ht.home hid) fun h => (hw h).1).bind
    intro r u hu hr
    exact hev.runAll hI rest hu.holds (hu.home (ht.home hid)) hr fun h => (hw h).2

end

section Branches

variable {ev : Expr → Recorded Ref} {ev' : Expr → Eval Ref} (hev : I.Mirrors scope ev ev')
  (hI : I.Stable)

include hev hI

theorem Mirrors.choose (condition : Expr) (consequence : Block) (alternative : Option Block)
    (hs : I.holds s) (hid : I.home s scope) (hc : I.strict → condition.WellFormed)
    (hb : I.strict → consequence.WellFormed) (ha : I.strict → ∀ b ∈ alternative, b.WellFormed) :
    I.Recounts scope s I.Value (Recorded.choose ev scope condition consequence alternative s)
      (Eval.choose ev' scope condition consequence alternative s) := by
  apply (hev condition s hs hid hc).bind
  intro r t ht _
  apply Recounts.read
  intro o _
  have branch {message : Unit → Bytes} (b : Block) (hb : I.strict → b.WellFormed) :
      I.Recounts scope t I.Value
        ((Recorded.silently (Eval.trace message) >>= fun _ => Recorded.block ev scope b) t)
        ((Eval.trace message >>= fun _ => b.run ev' scope) t) :=
    .trace hI ht.holds fun u hu => hev.block hI b hu.holds (hu.home (ht.home hid)) hb
  cases o with
  | boolean b =>
    cases b with
    | true => exact branch consequence hb
    | false =>
      cases alternative with
      | some b => exact branch b fun h => ha h b rfl
      | none => exact .pure ht.holds (hI.null ht.holds)
  | _ => exact .leaf (hI.ends_fail ht.holds _) (.fail _)

theorem Mirrors.shortCircuit (decisive : Bool) (left right : Expr) (hs : I.holds s)
    (hid : I.home s scope) (hl : I.strict → left.WellFormed) (hr : I.strict → right.WellFormed) :
    I.Recounts scope s I.Value (Recorded.shortCircuit ev decisive left right s)
      (Eval.shortCircuit ev' decisive left right s) := by
  apply (hev left s hs hid hl).bind
  intro l t ht _
  apply Recounts.read
  intro o _
  cases o with
  | boolean b =>
    dsimp only
    split
    · exact .pure ht.holds (hI.boolean ht.holds b)
    · apply (hev right t ht.holds (ht.home hid) hr).bind
      intro r u hu hr
      apply Recounts.read
      intro o' _
      cases o' with
      | boolean _ => exact .pure hu.holds hr
      | _ => exact .leaf (hI.ends_fail hu.holds _) (.fail _)
  | _ => exact .leaf (hI.ends_fail ht.holds _) (.fail _)

theorem Mirrors.strict (op : BinaryOp) (left right : Expr) (hs : I.holds s)
    (hid : I.home s scope) (hl : I.strict → left.WellFormed) (hr : I.strict → right.WellFormed) :
    I.Recounts scope s I.Value
      ((do
        let l ← ev left
        let r ← ev right
        let o ← Recorded.silently (Eval.read l)
        let o' ← Recorded.silently (Eval.read r)
        Recorded.leaf (Eval.ofResult (op.apply o o')) : Recorded Ref) s)
      ((do
        let l ← ev' left
        let r ← ev' right
        Eval.ofResult (op.apply (← Eval.read l) (← Eval.read r)) : Eval Ref) s) := by
  apply (hev left s hs hid hl).bind
  intro l t ht _
  apply (hev right t ht.holds (ht.home hid) hr).bind
  intro r u hu _
  apply Recounts.read
  intro o _
  apply Recounts.read
  intro o' _
  have hplain (o'') (h : op.apply o o' = .ok o'') := BinaryOp.plain_of_apply h
  exact .leaf (hI.ends_ofPlain hu.holds hplain) (.ofResult fun o'' h => (hplain o'' h).not_error)

end Branches

theorem recounts_pass {args : List Ref} {x : Recorded Ref} {y : Eval Ref} (hs : I.holds s)
    (ha : I.Values s args) (h : I.Recounts scope s I.Value (x s) (y s)) :
    I.Recounts scope s I.Value ((do Recorded.note (.pass args); x) s) (y s) := by
  apply Recounts.note
  · exact fun _ _ => rfl
  · exact ⟨trivial, rfl⟩
  · exact ⟨hs, ha, nofun⟩
  · exact h

section Calls

variable {ev : ScopeId → Expr → Recorded Ref} {ev' : ScopeId → Expr → Eval Ref}
  (hev : ∀ scope, I.Mirrors scope (ev scope) (ev' scope)) (hI : I.Stable)

include hev hI

theorem recounts_apply {callee : Ref} {params : List Bytes} {body : Block}
    {closure : Option ScopeId} {args : List Ref} (hs : I.holds s) (hc : I.good s (.object callee))
    (ho : s.store.get callee = .function params body closure) (ha : I.Values s args) :
    I.Recounts scope s I.Value (Recorded.apply ev params body closure args s)
      (Eval.apply ev' params body closure args s) := by
  unfold Recorded.apply Eval.apply
  split
  · exact .leaf (hI.ends_fail hs _) (.fail _)
  · have hgood : ∀ p ∈ params.zip args, I.good s (.object p.2) :=
      fun p hp => ha p.2 (List.of_mem_zip hp).2
    obtain ⟨hn, hhome⟩ := hI.newScope hs hc ho
    have hb := hI.later_bindParams (params.zip args) hn.holds hhome
      fun p hp => hn.good (hgood p hp)
    -- The body is recounted in its own scope, so that a return in it names this call.
    have hbody := (hev _).block hI body hb.holds (hb.home hhome) (hI.body hs hc ho)
    apply Recounts.called _ _ (hn.trans hb) hbody
    · exact ⟨rfl, rfl⟩
    · refine ⟨hb.holds, fun r hr => ?_, nofun⟩
      obtain ⟨p, hp, rfl⟩ := List.mem_map.mp hr
      exact (hn.trans hb).good (hgood p hp)

theorem recounts_call {callee : Ref} {args : List Ref} (hs : I.holds s)
    (hc : I.good s (.object callee)) (ha : I.Values s args) :
    I.Recounts scope s I.Value (Recorded.call ev callee args s) (Eval.call ev' callee args s) := by
  apply recounts_pass hs ha
  apply Recounts.read
  intro o ho
  have hpart : ∀ j, Heap.Part o j → I.good s j := fun j hj => hI.edge hs hc (.part (ho ▸ hj))
  cases o with
  | function params body closure =>
    exact recounts_apply hev hI hs hc ho ha
  | builtin b =>
    apply Recounts.trace hI hs
    intro t ht
    exact .leaf (hI.ends_builtin ht.holds b (ha.later ht)) (.builtin b args)
  | array elements =>
    exact .leaf (hI.ends_element hs fun e he => hpart _ (.element he)) (.element elements args)
  | string b => exact .leaf (hI.ends_byteAt hs b args) (.byteAt b args)
  | hash pairs =>
    exact .leaf (hI.ends_entry hs fun k r hk => hpart _ (.value hk)) (.entry pairs args)
  | _ => exact .leaf (hI.ends_fail hs _) (.fail _)

theorem mirrors_step (scope : ScopeId) :
    I.Mirrors scope (Recorded.step ev scope) (Expr.step ev' scope) := by
  intro e s hs hid hw
  cases e with
  | missing => exact .defect hs fun h => nomatch hw h
  | ident id => exact .leaf (hI.ends_identifier hs hid _) (.identifier scope _)
  | number token v =>
    exact .leaf (hI.ends_alloc hs (.of_plain (Object.plain_number v))) (.alloc nofun)
  | string token v =>
    exact .leaf (hI.ends_alloc hs (.of_plain (Object.plain_string v))) (.alloc nofun)
  | boolean token b => exact .pure hs (hI.boolean hs b)
  | null token => exact .pure hs (hI.null hs)
  | array token es =>
    apply ((hev scope).all es hs hid fun h => (hw h).elements).bind
    intro rs t ht hrs
    exact .leaf (hI.ends_alloc ht.holds (.array hrs)) (.alloc nofun)
  | hash token ks vs =>
    apply ((hev scope).pairs hI vs.length ks 0 vs .empty hs hid nofun fun h => (hw h).paired).bind
    intro d t ht hd
    exact .leaf (hI.ends_alloc ht.holds (.hash hd)) (.alloc nofun)
  | unary token op e =>
    apply (hev scope e s hs hid fun h => (hw h).operand).bind
    intro r t ht _
    apply Recounts.read
    intro o _
    have hplain (o') (h : op.apply o = .ok o') := UnaryOp.plain_of_apply h
    exact .leaf (hI.ends_ofPlain ht.holds hplain) (.ofResult fun o' h => (hplain o' h).not_error)
  | binary token l op r =>
    have hl (h : I.strict) := (hw h).left
    have hr (h : I.strict) := (hw h).right
    cases op with
    | and => exact (hev scope).shortCircuit hI false l r hs hid hl hr
    | or => exact (hev scope).shortCircuit hI true l r hs hid hl hr
    | _ => exact (hev scope).strict hI _ l r hs hid hl hr
  | cond token c b a =>
    exact (hev scope).choose hI c b a hs hid (fun h => (hw h).condition)
      (fun h => (hw h).consequence) fun h => (hw h).alternative
  | function token ps body =>
    exact .leaf (hI.ends_alloc hs (.function (hI.scope hid) fun h => (hw h).body)) (.alloc nofun)
  | call token f args =>
    have hall {t : State} (ht : I.holds t) (hid : I.home t scope) :=
      (hev scope).all args ht hid fun h => (hw h).args
    unfold Recorded.step Expr.step
    dsimp only
    split
    · cases Builtin.ofName? f.print with
      | none => exact .leaf (hI.ends_fail hs _) (.fail _)
      | some b =>
        apply (hall hs hid).bind
        intro rs t ht hrs
        apply recounts_pass ht.holds hrs
        apply Recounts.trace hI ht.holds
        intro u hu
        exact .leaf (hI.ends_builtin hu.holds b (hrs.later hu)) (.builtin b rs)
    · apply (hev scope f s hs hid fun h => (hw h).callee).bind
      intro callee t ht hc
      apply (hall ht.holds (ht.home hid)).bind
      intro rs u hu hrs
      exact recounts_call hev hI hu.holds (hu.good hc) hrs

end Calls

/-- Recorded evaluation recounts evaluation, whatever stable invariant there is. -/
theorem mirrors_eval (hI : I.Stable) (fuel : Nat) (scope : ScopeId) :
    I.Mirrors scope (Recorded.eval fuel scope) (Expr.eval fuel scope) := by
  induction fuel generalizing scope with
  | zero => exact fun e s hs _ _ => .outOfFuel hs
  | succ fuel ih =>
    intro e s hs hid hw
    apply Recounts.note
    · exact fun _ _ => rfl
    · exact ⟨trivial, rfl⟩
    · refine ⟨hs, nofun, ?_⟩
      rintro _ _ ⟨⟩
      exact ⟨hid, hw⟩
    · exact mirrors_step ih hI scope e s hs hid hw

def Undisturbed (I : Invariant) : Prop :=
  ∀ {s} scope r, I.holds s → I.Later s (s.collectIfDue scope r)

section Programs

variable (hI : I.Stable) (hc : I.Undisturbed)

include hc

theorem recounts_collectIfDue {r : Ref} (hs : I.holds s) (hr : I.good s (.object r)) :
    I.Recounts scope s (fun _ _ => True) (Recorded.collectIfDue scope r s)
      ((modify fun s => s.collectIfDue scope r : Eval Unit) s) := by
  have hl := hc scope r hs
  have hends : I.Ends s (fun _ _ => True)
      ((modify fun s => s.collectIfDue scope r : Eval Unit) s) := ⟨hl, trivial⟩
  by_cases hdue : s.statements < s.threshold
  · have hsame : s.collectIfDue scope r = s := if_pos hdue
    have hrun : Recorded.collectIfDue scope r s = ([], .ok () (s.collectIfDue scope r)) := by
      simp only [Recorded.collectIfDue, if_pos hdue]
    rw [hrun]
    refine ⟨rfl, hends, ?_, fun _ => rfl, I.proper_nil⟩
    exact congrArg State.muted hsame
  · have hcollected : (s.collectIfDue scope r).muted =
        (Event.effect s.muted (.collect scope r)).muted := by
      simp only [State.collectIfDue, if_neg hdue]
      rfl
    have hrun : Recorded.collectIfDue scope r s =
        ([⟨.collect scope r, s.collectIfDue scope r⟩], .ok () (s.collectIfDue scope r)) := by
      simp only [Recorded.collectIfDue, if_neg hdue]
    have hvalues : I.Values (s.collectIfDue scope r) [r] :=
      fun r' hr' => List.mem_singleton.mp hr' ▸ hl.good hr
    rw [hrun]
    exact .single (fun _ _ => rfl) ⟨trivial, hcollected⟩ ⟨hl.holds, hvalues, nofun⟩ hends

include hI

theorem Mirrors.statements {ev : Expr → Recorded Ref} {ev' : Expr → Eval Ref}
    (hev : I.Mirrors scope ev ev') (body : List Stmt) {last : Ref} (hs : I.holds s)
    (hid : I.home s scope) (hl : I.good s (.object last))
    (hw : I.strict → ∀ st ∈ body, st.WellFormed) :
    I.Recounts scope s I.Value (Recorded.statements ev scope last body s)
      (Program.runAll ev' scope last body s) := by
  induction body generalizing s last with
  | nil => exact .pure hs hl
  | cons st rest ih =>
    rw [List.forall_mem_cons] at hw
    apply (recounts_count hI hs).bind
    intro _ t ht _
    apply (hev.stmt hI st ht.holds (ht.home hid) fun h => (hw h).1).bind
    intro r u hu hr
    apply (recounts_collectIfDue hc hu.holds hr).bind
    intro _ v hv _
    exact ih hv.holds (hv.home (hu.home (ht.home hid))) (hv.good hr) fun h => (hw h).2

theorem recounts_node (fuel : Nat) (node : Node) (hs : I.holds s) (hid : I.home s scope)
    (hw : I.strict → node.WellFormed) :
    I.Recounts scope s I.Value (node.record fuel scope s) (node.run fuel scope s) := by
  cases node with
  | program p =>
    apply Recounts.trace hI hs
    intro t ht
    exact (mirrors_eval hI fuel scope).statements hI hc p.body ht.holds (ht.home hid)
      (hI.null ht.holds) hw
  | stmt st => exact (mirrors_eval hI fuel scope).stmt hI st hs hid hw
  | expr e => exact mirrors_eval hI fuel scope e s hs hid hw

end Programs

end CornScript.Invariant
