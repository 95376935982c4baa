import CornScript.Proofs.Eval.Discipline
import Mathlib

/-! # Statements since the last collection

The counter of a state is the number of statements that have been counted since the last collection.
Where the program goes on after a statement, the counter is compared with the threshold, so after a
program that ends normally it is below. A statement that fails or returns ends the program before
the comparison: the statements up to it stay uncounted for until a later program gets further, and
texts that fail one after the other are never followed by a collection.
-/

namespace CornScript

open Heap (Item)

/-- How many statements have been counted since the last collection, if there were `n` before. -/
def Moment.backlog (n : Nat) : List Moment → Nat
  | [] => n
  | ⟨.count, _⟩ :: ms => backlog (n + 1) ms
  | ⟨.collect _ _, _⟩ :: ms => backlog 0 ms
  | _ :: ms => backlog n ms

theorem Moment.backlog_append (n : Nat) (ms ms' : List Moment) :
    backlog n (ms ++ ms') = backlog (backlog n ms) ms' := by
  induction ms generalizing n with
  | nil => rfl
  | cons m ms ih =>
    obtain ⟨event, s⟩ := m
    cases event <;> exact ih _

theorem Accounted.backlog {s t : State} {ms : List Moment} (h : Accounted s ms t) :
    t.statements = Moment.backlog s.statements ms := by
  induction ms generalizing s with
  | nil =>
    have hmuted : t.muted.statements = s.muted.statements := congrArg State.statements h
    exact hmuted
  | cons m ms ih =>
    obtain ⟨event, u⟩ := m
    obtain ⟨⟨-, hstate⟩, h⟩ := h
    have hu : u.muted.statements = (event.effect s.muted).muted.statements :=
      congrArg State.statements hstate
    have hcount : u.statements = (event.effect s.muted).statements := hu
    rw [ih h, hcount]
    cases event <;> rfl

def Invariant.counting (threshold k : Nat) : Invariant where
  holds s := s.threshold = threshold ∧ k ≤ s.statements
  good _ _ := True
  home _ _ := True
  failed _ _ := True
  strict := False

namespace Invariant.counting

variable {threshold k : Nat} {s s' : State}

theorem later (h : (counting threshold k).holds s) (ht : s'.threshold = s.threshold)
    (hc : s.statements ≤ s'.statements) : (counting threshold k).Later s s' :=
  ⟨⟨ht.trans h.1, h.2.trans hc⟩, id, id⟩

theorem stable : (counting threshold k).Stable where
  boolean _ _ := trivial
  null _ := trivial
  builtin _ _ := trivial
  edge _ _ _ := trivial
  scope _ := trivial
  body _ _ _ := False.elim
  alloc h _ := ⟨later h rfl (Nat.le_refl _), trivial⟩
  fail _ h := ⟨later h rfl (Nat.le_refl _), trivial⟩
  bind _ h _ _ := later h rfl (Nat.le_refl _)
  newScope h _ _ := ⟨later h rfl (Nat.le_refl _), trivial⟩
  count h := later h rfl (Nat.le_succ _)
  trace _ h := later h rfl (Nat.le_refl _)
  failed_trace _ _ := trivial
  write h _ := later h rfl (Nat.le_refl _)

theorem ends_stmt (fuel : Nat) (scope : ScopeId) (st : Stmt)
    (h : (counting threshold k).holds s) :
    (counting threshold k).Ends s (counting threshold k).Value
      (st.run (Expr.eval fuel scope) scope s) :=
  (stable.keeps_eval fuel scope).ends_stmt stable st h trivial False.elim

end Invariant.counting

theorem State.statements_collectIfDue_lt {s : State} {threshold : Nat} (hpos : 0 < threshold)
    (hs : s.threshold = threshold) (scope : ScopeId) (r : Ref) :
    (s.collectIfDue scope r).threshold = threshold ∧
      (s.collectIfDue scope r).statements < threshold := by
  unfold collectIfDue
  split
  · next h => exact ⟨hs, hs ▸ h⟩
  · exact ⟨hs, hpos⟩

namespace Program

/-- What the counter says after a program: it is below the threshold if the program has come to its
end, unless there was no statement to run; and it is not zero if the program has ended before. -/
def Tallied (threshold : Nat) (body : List Stmt) (s : State) :
    EStateM.Result Abrupt State Ref → Prop
  | .ok _ t => t.threshold = threshold ∧
      if body.isEmpty then t.statements = s.statements else t.statements < threshold
  | .error _ t => body.isEmpty = false ∧ t.threshold = threshold ∧ 0 < t.statements

variable {threshold fuel : Nat} {scope : ScopeId} {s : State}

theorem tallied_runAll (hpos : 0 < threshold) (hs : s.threshold = threshold) (body : List Stmt)
    (last : Ref) :
    Tallied threshold body s (runAll (Expr.eval fuel scope) scope last body s) := by
  induction body generalizing s last with
  | nil => exact ⟨hs, rfl⟩
  | cons st rest ih =>
    have hcount : (Invariant.counting threshold 1).holds
        { s with statements := s.statements + 1 } := ⟨hs, Nat.succ_pos _⟩
    have hst := Invariant.counting.ends_stmt fuel scope st hcount
    change Tallied threshold (st :: rest) s (EStateM.bind (st.run _ _) _ _)
    unfold EStateM.bind
    cases hr : st.run (Expr.eval fuel scope) scope { s with statements := s.statements + 1 } with
    | error e t =>
      rw [hr] at hst
      exact ⟨rfl, hst.1.holds⟩
    | ok r t =>
      rw [hr] at hst
      obtain ⟨hthreshold, hlt⟩ := State.statements_collectIfDue_lt hpos hst.1.holds.1 scope r
      have hrest := ih hthreshold r
      change Tallied threshold (st :: rest) s (runAll _ _ _ _ _)
      cases hq : runAll (Expr.eval fuel scope) scope r rest (t.collectIfDue scope r) with
      | error e u =>
        rw [hq] at hrest
        exact ⟨rfl, hrest.2⟩
      | ok q u =>
        rw [hq] at hrest
        obtain ⟨hu, hcount⟩ := hrest
        refine ⟨hu, ?_⟩
        split at hcount
        · exact hcount ▸ hlt
        · exact hcount

theorem tallied_run (hpos : 0 < threshold) (hs : s.threshold = threshold) (fuel : Nat)
    (scope : ScopeId) (p : Program) :
    Tallied threshold p.body s (p.run fuel scope s) :=
  tallied_runAll (s := s.trace _) hpos hs p.body .null

end Program

def Program.breaksOff (fuel : Nat) (scope : ScopeId) (p : Program) (s : State) : Bool :=
  match p.run fuel scope s with
  | .ok _ _ => false
  | .error _ _ => true

namespace Session

variable {threshold fuel n : Nat} {output : Output} {log : Log} {ms : List Moment} {broken : Bool}
  {s : Session} {source : Bytes}

/-- A new session has come to this by texts that were parsed and run to their ends. With all that
happened, and whether the last statement at the top failed or returned. -/
inductive Runs (threshold : Nat) (output : Output) (log : Log) :
    List Moment → Bool → Session → Prop where
  | new : Runs threshold output log [] false (.new threshold output log)
  | exec {ms : List Moment} {broken : Bool} {s : Session} {fuel : Nat} {source : Bytes}
    {p : Program} {r : Ref} : Runs threshold output log ms broken s →
    Program.parse source = .ok p → (s.exec fuel source).1 = .finished (.value r) →
    Runs threshold output log (ms ++ ((Node.program p).record fuel s.scope s.state).1)
      (if p.body.isEmpty then broken else p.breaksOff fuel s.scope s.state)
      (s.exec fuel source).2

theorem state_exec {p : Program} (h : Program.parse source = .ok p) :
    (s.exec fuel source).2.state = Eval.stateOf (p.run fuel s.scope s.state) := by
  have hrun : ((Node.program p).eval fuel s.scope s.state).2 =
      Eval.stateOf (p.run fuel s.scope s.state) := Node.stateOf_run
  rw [exec_of_parse h]
  exact hrun

theorem Runs.holds (h : Runs threshold output log ms broken s) : discipline.holds s.state := by
  induction h with
  | new => exact discipline_new
  | exec _ hp _ ih =>
    rw [state_exec hp]
    exact (discipline.recounts ih _ _ (.program _)).ends.later.holds

theorem Runs.statements (h : Runs threshold output log ms broken s) :
    s.state.statements = Moment.backlog 0 ms := by
  induction h with
  | new => rfl
  | exec h hp _ ih =>
    rw [state_exec hp, Moment.backlog_append, ← ih]
    exact (discipline.recounts h.holds _ _ (.program _)).accounted.backlog

theorem Runs.tallied (hpos : 0 < threshold) (h : Runs threshold output log ms broken s) :
    s.state.threshold = threshold ∧ (broken = false → s.state.statements < threshold) ∧
      (broken = true → 0 < s.state.statements) := by
  induction h with
  | new => exact ⟨if_neg hpos.ne', fun _ => hpos, nofun⟩
  | @exec ms broken s fuel source p r h hp _ ih =>
    obtain ⟨hthreshold, hnormal, hbroken⟩ := ih
    have ht := Program.tallied_run hpos hthreshold fuel s.scope p
    rw [state_exec hp, Program.breaksOff]
    cases hr : p.run fuel s.scope s.state with
    | ok q t =>
      rw [hr] at ht
      obtain ⟨ht, hcount⟩ := ht
      refine ⟨ht, ?_⟩
      split
      · next hnil =>
        rw [if_pos hnil] at hcount
        exact ⟨fun hb => hcount ▸ hnormal hb, fun hb => hcount ▸ hbroken hb⟩
      · next hnil =>
        rw [if_neg hnil] at hcount
        exact ⟨fun _ => hcount, nofun⟩
    | error e t =>
      rw [hr] at ht
      obtain ⟨hbody, ht, hcount⟩ := ht
      rw [hbody]
      exact ⟨ht, nofun, fun _ => hcount⟩

/-- A session in which nothing is bound and no collection has come, after `n` statements, each of
which has created an object that the heap still owns. -/
structure Barren (n : Nat) (s : Session) : Prop where
  scope : s.scope = ⟨0⟩
  scopes : s.state.store.scopes = #[⟨.empty, none⟩]
  handles : s.state.handles.table.size ≤ s.state.store.objects.size
  statements : s.state.statements = n
  cycles : s.state.heap.cycles = 0
  live : s.state.heap.live = n

theorem barren_new : Barren 0 (.new threshold output log) :=
  ⟨rfl, rfl, Nat.zero_le _, rfl, rfl, rfl⟩

theorem Barren.alloc (h : s.Barren n) (o : Object) :
    Barren (n + 1) ⟨({ s.state with statements := n + 1 }.alloc o).2, s.scope⟩ := by
  have hget : s.state.handles.get ⟨s.state.store.objects.size⟩ = .unset := by
    simp [Handles.get, Array.getD_eq_getD_getElem?, Array.getElem?_eq_none h.handles]
  have hfresh : s.state.heap.contains s.state.handles ⟨s.state.store.objects.size⟩ = false :=
    Heap.contains_of_unset hget
  have hheap := Heap.fst_register hfresh
  have hhandles := Heap.snd_register hfresh
  refine ⟨h.scope, h.scopes, ?_, rfl, ?_, ?_⟩
  · change (Heap.register _ _ _).2.table.size ≤ (s.state.store.objects.push o).size
    have hlt : ¬ s.state.store.objects.size < s.state.handles.table.size := by
      simpa using h.handles
    have hle := h.handles
    rw [hhandles, Handles.set, if_neg hlt]
    simp
    omega
  · change (Heap.register _ _ _).1.cycles = 0
    rw [hheap]
    exact h.cycles
  · change (Heap.register _ _ _).1.live = n + 1
    rw [hheap]
    exact congrArg (· + 1) h.live

def lone : Bytes := text "x"

def loneProgram : Program :=
  ⟨[.expr ⟨.ident, lone, ⟨1, 1⟩⟩ (.ident ⟨⟨.ident, lone, ⟨1, 1⟩⟩, lone⟩)]⟩

theorem parse_lone : Program.parse lone = .ok loneProgram := by cbv

theorem identifier_lone {t : State} (h : t.store.scopes = #[⟨.empty, none⟩]) :
    Eval.identifier ⟨0⟩ lone t = Eval.fail (.undefined lone) t := by
  have hlookup : t.store.lookup ⟨0⟩ lone = none := by
    rw [Store.lookup, Store.lookupWithin, Store.scope?, h]
    rfl
  have hbuiltin : Builtin.ofName? lone = none := by decide +kernel
  unfold Eval.identifier
  change EStateM.bind EStateM.get _ t = _
  simp only [EStateM.bind, EStateM.get, hlookup, hbuiltin]

def enterLone (s : State) : State :=
  { s.trace fun _ =>
      text "eval program (" ++ Bytes.ofNat loneProgram.body.length ++ text " statements)" with
    statements := s.statements + 1 }

theorem run_lone (hscope : s.scope = ⟨0⟩) (hscopes : s.state.store.scopes = #[⟨.empty, none⟩]) :
    loneProgram.run 1 s.scope s.state =
      .error (.failed ⟨s.state.store.objects.size⟩)
        ((enterLone s.state).alloc (.error (.undefined lone))).2 := by
  have hrun : loneProgram.run 1 s.scope s.state =
      EStateM.bind (Eval.identifier s.scope lone)
        (fun r => do
          modify fun state => state.collectIfDue s.scope r
          pure r) (enterLone s.state) := rfl
  have hid := identifier_lone (t := enterLone s.state) hscopes
  rw [hrun, EStateM.bind, hscope, hid]
  rfl

theorem Barren.run_lone (h : s.Barren n) : ∃ r t,
    loneProgram.run 1 s.scope s.state = .error (.failed r) t ∧ Barren (n + 1) ⟨t, s.scope⟩ := by
  let u := { enterLone s.state with statements := s.state.statements }
  have hu : Barren n ⟨u, s.scope⟩ := ⟨h.scope, h.scopes, h.handles, h.statements, h.cycles, h.live⟩
  have halloc := hu.alloc (.error (.undefined lone))
  rw [← h.statements] at halloc
  exact ⟨_, _, Session.run_lone h.scope h.scopes, h.statements ▸ halloc⟩

theorem Barren.exec (h : s.Barren n) (hr : Runs threshold output log ms broken s) :
    ∃ ms', Runs threshold output log ms' true (s.exec 1 lone).2 ∧
      Barren (n + 1) (s.exec 1 lone).2 := by
  obtain ⟨r, t, hrun, ht⟩ := h.run_lone
  have hexec : s.exec 1 lone = (.finished (.value r), ⟨t, s.scope⟩) := by
    rw [exec_of_parse parse_lone, hrun]
    rfl
  have hbroken : loneProgram.breaksOff 1 s.scope s.state = true := by
    rw [Program.breaksOff, hrun]
  have hruns := hr.exec parse_lone (congrArg Prod.fst hexec)
  rw [hbroken] at hruns
  rw [hexec] at hruns ⊢
  exact ⟨_, hruns, ht⟩

/-- Texts that fail are never followed by a collection, however many there are. -/
theorem exists_barren (threshold : Nat) (output : Output) (log : Log) (n : Nat) : ∃ ms s,
    Runs threshold output log ms (0 < n) s ∧ Barren n s := by
  induction n with
  | zero => exact ⟨_, _, .new, barren_new⟩
  | succ n ih =>
    obtain ⟨ms, s, hr, hs⟩ := ih
    obtain ⟨ms', hr', hs'⟩ := hs.exec hr
    exact ⟨ms', _, by simpa using hr', hs'⟩

/-- The number of statements since the last collection is what the counter says. It is below the
threshold after a text whose program has come to its end. But it can be any number: no text that
fails or returns is followed by a collection, so with such texts objects can be created without end
and none is freed. With the threshold one, the number is below it just after the texts whose
programs come to their ends. -/
theorem backlog_runs (hpos : 0 < threshold) (output : Output) (log : Log) :
    (∀ {ms broken s}, Runs threshold output log ms broken s →
      Moment.backlog 0 ms = s.state.statements ∧
      (broken = false → Moment.backlog 0 ms < threshold) ∧
      (threshold = 1 → (Moment.backlog 0 ms < threshold ↔ broken = false))) ∧
    ∀ n, ∃ ms s, Runs threshold output log ms (0 < n) s ∧ Moment.backlog 0 ms = n ∧
      s.state.heap.cycles = 0 ∧ s.state.heap.live = n := by
  refine ⟨fun {ms broken s} h => ?_, fun n => ?_⟩
  · obtain ⟨-, hnormal, hbroken⟩ := h.tallied hpos
    rw [← h.statements]
    refine ⟨rfl, hnormal, ?_⟩
    rintro rfl
    refine ⟨fun hlt => ?_, hnormal⟩
    cases broken with
    | false => rfl
    | true => exact absurd hlt (Nat.not_lt.mpr (hbroken rfl))
  · obtain ⟨ms, s, hr, hs⟩ := exists_barren threshold output log n
    exact ⟨ms, s, hr, hr.statements ▸ hs.statements, hs.cycles, hs.live⟩

def bindEmpty : Bytes := text "let a = []"

def bindEmptyProgram : Program :=
  ⟨[.bind ⟨.letWord, text "let", ⟨1, 1⟩⟩ ⟨⟨.ident, text "a", ⟨1, 5⟩⟩, text "a"⟩
    (.array ⟨.leftBracket, text "[", ⟨1, 9⟩⟩ [])]⟩

theorem backlog_runs_lone :
    (∃ ms s, Runs 1 .unlimited (.start .info) ms false s ∧ s.state.heap.cycles = 1 ∧
      Moment.backlog 0 ms < 1) ∧
    ∃ ms s, Runs 1 .unlimited (.start .info) ms true s ∧ s.state.heap.cycles = 0 ∧
      ¬ Moment.backlog 0 ms < 1 := by
  have hbound := backlog_runs Nat.one_pos .unlimited (.start .info)
  constructor
  · have hp : Program.parse bindEmpty = .ok bindEmptyProgram := by cbv
    have hanswer : ((new 1 .unlimited (.start .info)).exec 10 bindEmpty).1 =
        .finished (.value ⟨7⟩) := by cbv
    have hbroken : bindEmptyProgram.breaksOff 10 (new 1 .unlimited (.start .info)).scope
        (new 1 .unlimited (.start .info)).state = false := by cbv
    have hcycles : ((new 1 .unlimited (.start .info)).exec 10 bindEmpty).2.state.heap.cycles = 1 :=
      by cbv
    have hr := Runs.new.exec hp hanswer
    rw [hbroken] at hr
    exact ⟨_, _, hr, hcycles, (hbound.1 hr).2.1 rfl⟩
  · obtain ⟨ms, s, hr, hs⟩ := exists_barren 1 .unlimited (.start .info) 1
    refine ⟨ms, s, hr, hs.cycles, fun hlt => ?_⟩
    exact absurd (((hbound.1 hr).2.2 rfl).mp hlt) (by decide)

end Session

end CornScript
