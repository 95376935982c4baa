import CornScript.Proofs.Eval.Cutting
import CornScript.Proofs.Token.Scan
import CornScript.Repl
import Mathlib

/-! # Line by line

The loop runs every line as a program of its own, and writes its prompt and the value of the line in
between. As long as no line is too long and all end normally, this leaves the session as the one
program of all statements does, down to the slots of the heap and the statement counter.
-/

namespace CornScript.Repl

variable {fuel : Nat} {prompt : Bytes} {lines : List Bytes} {s s' : Session} {t : State}
  {body : List Stmt} {printed : Bytes}

/-- Lines that hold programs which all end normally, each run in the session that the one before has
left. With the statements of all of them, what they print, and the session after the last one. -/
inductive InTurn (fuel : Nat) (prompt : Bytes) :
    List Bytes → Session → List Stmt → Bytes → Session → Prop where
  | nil {s : Session} : InTurn fuel prompt [] s [] [] s
  | cons {line : Bytes} {rest : List Bytes} {s s' : Session} {p : Program} {r : Ref} {t : State}
    {body : List Stmt} {printed more : Bytes} :
    Request.ofLine (dropReturn line) = .program (dropReturn line) →
    Program.parse (dropReturn line) = .ok p →
    p.run fuel s.scope (s.print prompt).state = .ok r t →
    t.output.contents = (s.print prompt).state.output.contents ++ printed →
    InTurn fuel prompt rest
      (Session.print ⟨t, s.scope⟩ ((t.store.get r).inspect ++ text "\n")) body more s' →
    InTurn fuel prompt (line :: rest) s (p.body ++ body) (printed ++ more) s'

theorem InTurn.serveLines (h : InTurn fuel prompt lines s body printed s')
    (hshort : ∀ line ∈ lines, line.length < lineLimit) :
    Repl.serveLines fuel prompt lines s = ⟨0, [], s'.print prompt⟩ := by
  induction h with
  | nil => rfl
  | @cons line rest s s' p r t _ _ _ hprogram hparse hrun _ _ ih =>
    obtain ⟨hline, hrest⟩ := List.forall_mem_cons.mp hshort
    have hexec : (s.print prompt).exec fuel (dropReturn line) =
        (.finished (.value r), ⟨t, s.scope⟩) := by
      have hrun : p.run fuel (s.print prompt).scope (s.print prompt).state = .ok r t := hrun
      rw [Session.exec_of_parse hparse, hrun]
      rfl
    have hstep : serveLine fuel line (s.print prompt) =
        .next (Session.print ⟨t, s.scope⟩ ((t.store.get r).inspect ++ text "\n")) := by
      rw [serveLine, if_neg (Nat.not_le.mpr hline), hprogram]
      dsimp only
      rw [hexec]
      rfl
    rw [Repl.serveLines, hstep]
    exact ih hrest

/-- What is written in between makes no difference to the statements. -/
theorem InTurn.run (h : InTurn fuel prompt lines s body printed s') (ht : s.state.Shadows t)
    (last : Ref) : s'.scope = s.scope ∧ ∃ r u,
      Program.runAll (Expr.eval fuel s.scope) s.scope last body t = .ok r u ∧ s'.state.Shadows u ∧
      u.output.contents = t.output.contents ++ printed := by
  induction h generalizing t last with
  | nil => exact ⟨rfl, last, t, rfl, ht, (List.append_nil _).symm⟩
  | @cons line rest s s' p r t₁ body printed more hprogram hparse hrun hprinted _ ih =>
    have hprompt : (s.print prompt).state.Shadows t :=
      { ht with output := ht.output.append prompt }
    -- The program of the line writes to the log before its first statement.
    have hline : Program.runAll (Expr.eval fuel s.scope) s.scope .null p.body _ = .ok r t₁ := hrun
    obtain ⟨v, ws, hv, hshadows, ht₁, houtput⟩ :=
      State.Shadows.runAll (s := (s.print prompt).state.trace _) { hprompt with } hline
    have hws : ws.reverse.flatten = printed := by
      rw [ht₁, Output.contents_extend] at hprinted
      exact List.append_cancel_left hprinted
    have hnext : (Session.print ⟨t₁, s.scope⟩ ((t₁.store.get r).inspect ++ text "\n")).state.Shadows
        v := { hshadows with output := hshadows.output.append _ }
    obtain ⟨r', hv⟩ := Program.exists_runAll hv last
    obtain ⟨hscope, r'', u, hu, hlast, hcontents⟩ := ih hnext r'
    refine ⟨hscope, r'', u, ?_, hlast, ?_⟩
    · rw [Program.runAll_append]
      change EStateM.bind _ _ t = _
      rw [EStateM.bind, hv]
      exact hu
    · rw [hcontents, houtput, Output.contents_extend, hws, List.append_assoc]

/-- Serving lines that all end normally and are not too long leaves the session as the one program
of all their statements does, apart from the log and from what is written in between. The
statements print the same. -/
theorem serve_inTurn {options : Options} {input : Bytes}
    (h : InTurn fuel options.prompt (inputLines input) (greet options s) body printed s')
    (hshort : ∀ line ∈ inputLines input, line.length < lineLimit) :
    let ending := serve fuel options input s
    (ending.code = 0 ∧ ending.errors = [] ∧ ending.session.scope = s.scope) ∧
    ∃ r t, Program.run fuel s.scope ⟨body⟩ s.state = .ok r t ∧ ending.session.state.Shadows t ∧
      t.output.contents = s.state.output.contents ++ printed := by
  have hserve : serve fuel options input s = ⟨0, [], s'.print options.prompt⟩ :=
    h.serveLines hshort
  have hgreet : (greet options s).scope = s.scope ∧ (greet options s).state.Shadows s.state := by
    have hs := State.Shadows.refl s.state
    unfold greet
    split
    · exact ⟨rfl, { hs with output := hs.output.append banner }⟩
    · exact ⟨rfl, hs⟩
  obtain ⟨hscope, r, t, hrun, hlast, hcontents⟩ :=
    h.run (t := s.state.trace _) { hgreet.2 with } .null
  rw [hgreet.1] at hscope hrun
  rw [hserve]
  exact ⟨⟨rfl, rfl, hscope⟩, r, t, hrun,
    { hlast with output := hlast.output.append options.prompt }, hcontents⟩

def bindPrint : Bytes := text "let a = 'x'\nprint(a)\n"

def bindProgram : Program :=
  ⟨[.bind ⟨.letWord, text "let", ⟨1, 1⟩⟩ ⟨⟨.ident, text "a", ⟨1, 5⟩⟩, text "a"⟩
    (.string ⟨.string, text "x", ⟨1, 9⟩⟩ (text "x"))]⟩

def printProgram : Program :=
  ⟨[.expr ⟨.ident, text "print", ⟨1, 1⟩⟩ (.call ⟨.leftParen, text "(", ⟨1, 6⟩⟩
    (.ident ⟨⟨.ident, text "print", ⟨1, 1⟩⟩, text "print"⟩)
    [.ident ⟨⟨.ident, text "a", ⟨1, 7⟩⟩, text "a"⟩])]⟩

def prompting : Options := ⟨text "> ", false⟩

def started : Session := .new 1 .unlimited (.start .info)

def afterBind : State :=
  Eval.stateOf (bindProgram.run 10 started.scope (started.print prompting.prompt).state)

def shown : Session :=
  Session.print ⟨afterBind, started.scope⟩ ((afterBind.store.get ⟨7⟩).inspect ++ text "\n")

def afterPrint : State :=
  Eval.stateOf (printProgram.run 10 shown.scope (shown.print prompting.prompt).state)

theorem inTurn_bindPrint : ∃ s', InTurn 10 prompting.prompt (inputLines bindPrint) started
    (bindProgram.body ++ (printProgram.body ++ [])) ([] ++ (text "x\n" ++ [])) s' := by
  have hlines : inputLines bindPrint = [text "let a = 'x'", text "print(a)"] := by decide +kernel
  have hline : Request.ofLine (dropReturn (text "let a = 'x'")) =
      .program (dropReturn (text "let a = 'x'")) := by decide +kernel
  have hline' : Request.ofLine (dropReturn (text "print(a)")) =
      .program (dropReturn (text "print(a)")) := by decide +kernel
  have hparse : Program.parse (dropReturn (text "let a = 'x'")) = .ok bindProgram := by cbv
  have hparse' : Program.parse (dropReturn (text "print(a)")) = .ok printProgram := by cbv
  have hbind : bindProgram.run 10 started.scope (started.print prompting.prompt).state =
      .ok ⟨7⟩ afterBind := by cbv
  have hprint : printProgram.run 10 shown.scope (shown.print prompting.prompt).state =
      .ok .null afterPrint := by cbv
  have hs : afterBind.output.contents =
      (started.print prompting.prompt).state.output.contents ++ [] := by cbv
  have hs' : afterPrint.output.contents =
      (shown.print prompting.prompt).state.output.contents ++ text "x\n" := by cbv
  rw [hlines]
  exact ⟨_, .cons hline hparse hbind hs (.cons hline' hparse' hprint hs' .nil)⟩

theorem serve_inTurn_bindPrint : ∃ s',
    InTurn 10 prompting.prompt (inputLines bindPrint) (greet prompting started)
      (bindProgram.body ++ (printProgram.body ++ [])) ([] ++ (text "x\n" ++ [])) s' ∧
    (∀ line ∈ inputLines bindPrint, line.length < lineLimit) ∧
    (serve 10 prompting bindPrint started).code = 0 ∧
    ∃ r t, Program.run 10 started.scope ⟨bindProgram.body ++ printProgram.body⟩ started.state =
        .ok r t ∧ (serve 10 prompting bindPrint started).session.state.Shadows t ∧
      t.output.contents = text "x\n" := by
  obtain ⟨s', h⟩ := inTurn_bindPrint
  have hshort : ∀ line ∈ inputLines bindPrint, line.length < lineLimit := by decide +kernel
  obtain ⟨⟨hcode, -⟩, r, t, hrun, hsame, hcontents⟩ := serve_inTurn (s := started) h hshort
  exact ⟨s', h, hshort, hcode, r, t, hrun, hsame, hcontents⟩

section Overlong

variable {n : Nat} {q : Pos}

def padded (n : Nat) : Bytes := List.replicate n 0x20 ++ text "true"

def trueProgram (q : Pos) : Program :=
  ⟨[.expr ⟨.trueWord, text "true", q⟩ (.boolean ⟨.trueWord, text "true", q⟩ true)]⟩

theorem not_mem_padded {b : UInt8} (hb : b ≠ 0x20) (hword : b ∉ text "true") : b ∉ padded n := by
  rw [padded, List.mem_append, List.mem_replicate]
  rintro (⟨-, h⟩ | h)
  · exact hb h
  · exact hword h

theorem parse_padded (n : Nat) : ∃ q, Program.parse (padded n) = .ok (trueProgram q) := by
  have hcut : (padded n).takeWhile (· ≠ 0) = padded n := by
    rw [List.takeWhile_eq_self_iff]
    intro b hb
    have h0 : (0 : UInt8) ∉ padded n := not_mem_padded (by decide) (by decide)
    simpa using ne_of_mem_of_not_mem hb h0
  have hword (q : Pos) : Token.scanFrom (text "true") q =
      [⟨.trueWord, text "true", q⟩, Token.endAt (q.after (text "true"))] := by cbv
  have htree (q : Pos) : Program.ofTokens
      [⟨.trueWord, text "true", q⟩, Token.endAt (q.after (text "true"))] =
        .ok (trueProgram q) := by cbv
  refine ⟨Pos.start.after (List.replicate n 0x20), ?_⟩
  rw [Program.parse, Token.scan, hcut, padded, Token.scanFrom_blanks, hword, htree]

theorem dropMarks_padded (n k : Nat) (s : Bytes) :
    Bytes.dropMarks Bytes.blanks (n + k) (List.replicate n 0x20 ++ s) =
      Bytes.dropMarks Bytes.blanks k s := by
  induction n with
  | zero =>
    rw [Nat.zero_add]
    rfl
  | succ n ih =>
    rw [Nat.succ_add]
    exact ih

theorem dropReturn_padded (n : Nat) : dropReturn (padded n) = padded n := by
  have hlast : (padded n).getLast? = (text "true").getLast? := by
    rw [padded, List.getLast?_append]
    rfl
  rw [dropReturn, hlast, if_neg (by decide)]

theorem ofLine_padded (n : Nat) : Request.ofLine (padded n) = .program (padded n) := by
  have htrim : Bytes.trim (padded n) = text "true" := by
    have hlength : (padded n).length = n + (text "true").length := by simp [padded]
    rw [Bytes.trim, hlength, padded, dropMarks_padded]
    decide +kernel
  rw [Request.ofLine, htrim]
  exact (if_neg (by decide)).trans ((if_neg (by decide)).trans (if_neg (by decide)))

theorem splitOn_eq_singleton {b : UInt8} {s : Bytes} (h : b ∉ s) : Bytes.splitOn b s = [s] := by
  induction s with
  | nil => rfl
  | cons c s ih =>
    obtain ⟨hc, hs⟩ := not_or.mp (mt List.mem_cons.mpr h)
    change (if c = b then [] :: Bytes.splitOn b s else Bytes.consPart c (Bytes.splitOn b s)) = _
    rw [if_neg (Ne.symm hc), ih hs]
    rfl

theorem inputLines_padded (n : Nat) : inputLines (padded n) = [padded n] := by
  have hlines : Bytes.lines (padded n) = [padded n] :=
    splitOn_eq_singleton (not_mem_padded (by decide) (by decide))
  have hne : padded n ≠ [] := List.append_ne_nil_of_right_ne_nil _ (by decide)
  rw [inputLines, hlines]
  exact if_neg fun h => hne (Option.some.inj h)

def afterTrue (q : Pos) : State :=
  Eval.stateOf ((trueProgram q).run 10 started.scope (started.print prompting.prompt).state)

theorem inTurn_padded (n : Nat) : ∃ q s', InTurn 10 prompting.prompt (inputLines (padded n)) started
    ((trueProgram q).body ++ []) ([] ++ []) s' := by
  obtain ⟨q, hparse⟩ := parse_padded n
  have hrun : (trueProgram q).run 10 started.scope (started.print prompting.prompt).state =
      .ok (.ofBool true) (afterTrue q) := by cbv
  have hprinted : (afterTrue q).output.contents =
      (started.print prompting.prompt).state.output.contents ++ [] := by cbv
  have hline := ofLine_padded n
  rw [← dropReturn_padded n] at hparse hline
  rw [inputLines_padded]
  exact ⟨q, _, .cons hline hparse hrun hprinted .nil⟩

theorem heap_serve_padded (hn : lineLimit ≤ n + 4) :
    (serve fuel prompting (padded n) s).session.state.heap = s.state.heap := by
  have hlength : (padded n).length = n + 4 := by
    rw [padded, List.length_append, List.length_replicate]
    rfl
  rw [serve, inputLines_padded, serveLines, serveLine, if_pos (hlength ▸ hn)]
  rfl

/-- The line would be run if it were not too long. As it is, no statement is counted. -/
theorem not_shadows_padded (hn : lineLimit ≤ n + 4) : ∃ body printed s' r t,
    InTurn 10 prompting.prompt (inputLines (padded n)) (greet prompting started) body printed s' ∧
    Program.run 10 started.scope ⟨body⟩ started.state = .ok r t ∧
    ¬ (serve 10 prompting (padded n) started).session.state.Shadows t := by
  obtain ⟨q, s', h⟩ := inTurn_padded n
  have hrun : (trueProgram q).run 10 started.scope started.state =
      .ok (.ofBool true) (Eval.stateOf ((trueProgram q).run 10 started.scope started.state)) := by
    cbv
  refine ⟨_, _, s', _, _, h, hrun, fun hsame => ?_⟩
  have hcycles : (Eval.stateOf ((trueProgram q).run 10 started.scope started.state)).heap.cycles =
      1 := by cbv
  rw [hsame.heap, heap_serve_padded hn] at hcycles
  exact absurd hcycles (by decide)

def overlong : Bytes := padded 65532

theorem not_shadows_overlong : ∃ body printed s' r t,
    InTurn 10 prompting.prompt (inputLines overlong) (greet prompting started) body printed s' ∧
    Program.run 10 started.scope ⟨body⟩ started.state = .ok r t ∧
    ¬ (serve 10 prompting overlong started).session.state.Shadows t := by
  rw [overlong]
  exact not_shadows_padded (n := 65532) (Nat.le_refl lineLimit)

end Overlong

end CornScript.Repl
