import CornScript.Proofs.Eval.Transparency
import CornScript.Proofs.Parser.Moved

/-! # Formatting does not change meaning

Texts that differ in blanks, comments, line breaks and quotes still have the same kinds and literals
of tokens. Texts that agree in these have the same tree apart from places, or errors that read the
same. A function takes its body into later texts, so places reach the store, but nothing that runs
looks at them. Two such texts in two sessions that are equal apart from places therefore have the
same answer, print the same, and leave the sessions equal apart from places, down to handles and
heap.

Both runs are compared with one in which all tokens stand at one place.
-/

namespace CornScript

def Store.unplaced (s : Store) : Store := s.moved .forget

/-- Programs that are equal apart from places, or errors with the same message and context. -/
inductive Program.ReadAlike : Except SyntaxError Program → Except SyntaxError Program → Prop where
  | ok {p q : Program} : p.unplaced = q.unplaced → ReadAlike (.ok p) (.ok q)
  | error {e e' : SyntaxError} : e.message = e'.message → e.context = e'.context →
    ReadAlike (.error e) (.error e')

theorem Program.ReadAlike.of_moved {x y : Except SyntaxError Program}
    (h : (x.map (Program.moved .forget)).mapError (SyntaxError.moved .forget) =
      (y.map (Program.moved .forget)).mapError (SyntaxError.moved .forget)) : ReadAlike x y := by
  cases x with
  | ok p =>
    cases y with
    | ok q => exact .ok (Except.ok.inj h)
    | error e => cases h
  | error e =>
    cases y with
    | ok q => cases h
    | error e' =>
      have he : e.moved .forget = e'.moved .forget := Except.error.inj h
      apply ReadAlike.error
      · simpa using congrArg SyntaxError.message he
      · simpa using congrArg SyntaxError.context he

theorem Program.readAlike_of_content {a b : Bytes}
    (h : (Token.scan a).map Token.content = (Token.scan b).map Token.content) :
    ReadAlike (parse a) (parse b) := by
  have hmoved (tokens : List Token) : tokens.map (Token.moved .forget) =
      (tokens.map Token.content).map fun c => ⟨c.1, c.2, .start⟩ := by
    rw [List.map_map]
    rfl
  apply ReadAlike.of_moved
  rw [parse, parse, ← ofTokens_moved rfl, ← ofTokens_moved rfl, hmoved, hmoved, h]

/-- Equal apart from the places in function bodies. The log is left open: a text that does not parse
leaves a line with the place of its error there. -/
structure State.Matches (s t : State) : Prop where
  store : s.store.unplaced = t.store.unplaced
  heap : s.heap = t.heap
  handles : s.handles = t.handles
  statements : s.statements = t.statements
  threshold : s.threshold = t.threshold
  output : s.output = t.output

def Coupling.unplaced (loud : Prop) : Coupling := .level .forget True loud

theorem Coupling.Relates.unplaced_matches {s t u : State} {loud : Prop}
    (hs : (Coupling.unplaced loud).Relates s u) (ht : (Coupling.unplaced loud).Relates t u) :
    s.Matches t ∧ (loud → s.log = t.log) := by
  constructor
  · constructor
    · exact hs.store.symm.trans ht.store
    · exact (hs.heap trivial).symm.trans (ht.heap trivial)
    · exact (hs.handles trivial).symm.trans (ht.handles trivial)
    · exact (hs.statements trivial).symm.trans (ht.statements trivial)
    · exact (hs.threshold trivial).symm.trans (ht.threshold trivial)
    · exact hs.output.symm.trans ht.output
  · intro hl
    exact (hs.log trivial hl).symm.trans (ht.log trivial hl)

theorem Coupling.Relates.eval_unplaced {s u : State} {loud : Prop}
    (h : (Coupling.unplaced loud).Relates s u) (fuel : Nat) (scope : ScopeId) (p : Program) :
    ((Node.program p).eval fuel scope s).1 = ((Node.program p.unplaced).eval fuel scope u).1 ∧
      (Coupling.unplaced loud).Relates ((Node.program p).eval fuel scope s).2
        ((Node.program p.unplaced).eval fuel scope u).2 :=
  h.eval id (.inl rfl) scope p fun hloose => absurd trivial hloose

namespace State.Matches

variable {s t : State}

theorem exists_relates (h : s.Matches t) : ∃ u, (Coupling.unplaced (s.log = t.log)).Relates s u ∧
    (Coupling.unplaced (s.log = t.log)).Relates t u := by
  refine ⟨{ s with store := s.store.unplaced }, ?_, ?_⟩
  · exact .of_moved rfl fun _ => rfl
  · exact ⟨h.store, h.output, fun _ => h.heap, fun _ => h.handles, fun _ => h.statements,
      fun _ => h.threshold, fun _ hl => hl⟩

theorem eval (h : s.Matches t) {p q : Program} (hpq : p.unplaced = q.unplaced) (fuel : Nat)
    (scope : ScopeId) :
    let x := (Node.program p).eval fuel scope s
    let y := (Node.program q).eval fuel scope t
    x.1 = y.1 ∧ x.2.Matches y.2 ∧ (s.log = t.log → x.2.log = y.2.log) := by
  obtain ⟨u, hs, ht⟩ := h.exists_relates
  obtain ⟨hp, hps⟩ := hs.eval_unplaced fuel scope p
  obtain ⟨hq, hqt⟩ := ht.eval_unplaced fuel scope q
  rw [hpq] at hp hps
  exact ⟨hp.trans hq.symm, hps.unplaced_matches hqt⟩

end State.Matches

namespace Session

structure Matches (s t : Session) : Prop where
  state : s.state.Matches t.state
  scope : s.scope = t.scope

/-- The object `r` has the same type, the same text and the same handle in both sessions, and the
same contents at any depth apart from places. -/
structure MatchesAt (s t : Session) (r : Ref) : Prop where
  kind : (s.object r).kind = (t.object r).kind
  inspect : (s.object r).inspect = (t.object r).inspect
  handle : s.state.handles.get r = t.state.handles.get r
  contents : ∀ depth, s.state.store.unplaced.view depth (.object r) =
    t.state.store.unplaced.view depth (.object r)

inductive Answer.Matches (s t : Session) : Answer → Answer → Prop where
  | fatal {e e' : SyntaxError} : e.message = e'.message → e.context = e'.context →
    Answer.Matches s t (.fatal e) (.fatal e')
  | value {r : Ref} : MatchesAt s t r →
    Answer.Matches s t (.finished (.value r)) (.finished (.value r))
  | defect (d : Defect) : Answer.Matches s t (.finished (.defect d)) (.finished (.defect d))
  | outOfFuel : Answer.Matches s t (.finished .outOfFuel) (.finished .outOfFuel)

variable {s t : Session}

theorem Matches.refl (s : Session) : s.Matches s :=
  ⟨⟨rfl, rfl, rfl, rfl, rfl, rfl⟩, rfl⟩

theorem Matches.matchesAt (h : s.Matches t) (r : Ref) : MatchesAt s t r := by
  have hget : (s.object r).moved .forget = (t.object r).moved .forget := by
    have hstore := congrArg (Store.get · r) h.state.store
    simpa only [Store.unplaced, Store.get_moved, object] using hstore
  constructor
  · simpa using congrArg Object.kind hget
  · simpa using congrArg Object.inspect hget
  · rw [h.state.handles]
  · intro depth
    rw [h.state.store]

theorem Matches.answer (h : s.Matches t) (outcome : Outcome) :
    Answer.Matches s t (.finished outcome) (.finished outcome) := by
  cases outcome with
  | value r => exact .value (h.matchesAt r)
  | defect d => exact .defect d
  | outOfFuel => exact .outOfFuel

theorem Matches.eval (h : s.Matches t) {p q : Program} (hpq : p.unplaced = q.unplaced)
    (fuel : Nat) :
    (s.eval fuel (.program p)).1 = (t.eval fuel (.program q)).1 ∧
      (s.eval fuel (.program p)).2.Matches (t.eval fuel (.program q)).2 ∧
      (s.state.log = t.state.log → (s.eval fuel (.program p)).2.state.log =
        (t.eval fuel (.program q)).2.state.log) := by
  obtain ⟨houtcome, hstate, hlog⟩ := h.state.eval hpq fuel s.scope
  unfold Session.eval
  rw [← h.scope]
  exact ⟨houtcome, ⟨hstate, rfl⟩, hlog⟩

/-- Two texts with the same kinds and literals of tokens mean the same: both have the same tree
apart from places or errors that read the same, and executing them in matching sessions gives
matching answers, prints the same and leaves matching sessions. Logs that were the same stay the
same if the texts parse. -/
theorem exec_reformatted {a b : Bytes}
    (hab : (Token.scan a).map Token.content = (Token.scan b).map Token.content) :
    Program.ReadAlike (Program.parse a) (Program.parse b) ∧
      ∀ s t : Session, s.Matches t → ∀ fuel,
        Answer.Matches (s.exec fuel a).2 (t.exec fuel b).2 (s.exec fuel a).1 (t.exec fuel b).1 ∧
        (s.exec fuel a).2.Matches (t.exec fuel b).2 ∧
        (s.state.log = t.state.log → (Program.parse a).isOk →
          (s.exec fuel a).2.state.log = (t.exec fuel b).2.state.log) := by
  have hread := Program.readAlike_of_content hab
  refine ⟨hread, fun s t h fuel => ?_⟩
  unfold Session.exec
  generalize Program.parse a = x, Program.parse b = y at hread
  cases hread with
  | @ok p q hpq =>
    obtain ⟨houtcome, hmatches, hlog⟩ := h.eval hpq fuel
    refine ⟨?_, hmatches, fun hl _ => hlog hl⟩
    change Answer.Matches _ _ (.finished (s.eval fuel (.program p)).1) _
    rw [houtcome]
    exact hmatches.answer _
  | error hmessage hcontext =>
    have hstate := h.state
    exact ⟨.fatal hmessage hcontext, ⟨{ hstate with }, h.scope⟩, nofun⟩

def bindWrapSpread : Bytes := text "let f =\n  fn (x) \x7b // wraps\n [ x ]\x7d\n"

def wrapTwiceSpread : Bytes := text "f( f( \"y\" ) )"

theorem content_bindWrapSpread :
    (Token.scan bindWrap).map Token.content = (Token.scan bindWrapSpread).map Token.content := by
  cbv

theorem content_wrapTwiceSpread :
    (Token.scan wrapTwice).map Token.content = (Token.scan wrapTwiceSpread).map Token.content := by
  cbv

theorem exec_reformatted_wrapTwice :
    let s := (Session.new 1 .unlimited (.start .info)).exec 10 bindWrap
    let t := (Session.new 1 .unlimited (.start .info)).exec 10 bindWrapSpread
    s.2.Matches t.2 ∧
      (s.2.exec 10 wrapTwice).1 = .finished (.value ⟨10⟩) ∧
      Answer.Matches (s.2.exec 10 wrapTwice).2 (t.2.exec 10 wrapTwiceSpread).2
        (s.2.exec 10 wrapTwice).1 (t.2.exec 10 wrapTwiceSpread).1 ∧
      (s.2.exec 10 wrapTwice).2.Matches (t.2.exec 10 wrapTwiceSpread).2 := by
  have hnew := Matches.refl (.new 1 .unlimited (.start .info))
  have hbind := ((exec_reformatted content_bindWrapSpread).2 _ _ hnew 10).2.1
  obtain ⟨hanswer, hmatches, -⟩ := (exec_reformatted content_wrapTwiceSpread).2 _ _ hbind 10
  exact ⟨hbind, answers_wrapped.2, hanswer, hmatches⟩

end Session

end CornScript
