import CornScript.Proofs.Eval.Safety
import CornScript.Proofs.Parser.Snippet
import CornScript.Proofs.Repl.LineByLine

/-! # What the loop writes

The lines of an input are served up to the first that asks to quit or does not parse. What the loop
writes is told by a session in which the programs among these lines are executed one after the
other, with no prompt and no value written in between: after the greeting comes a prompt and the
reply to each line, and after the last reply one more prompt.
-/

namespace CornScript.Repl

def scannedLines (input : Bytes) : List Bytes :=
  (inputLines input).map dropReturn

/-- The lines before the first one that asks to quit. -/
def activeLines (lines : List Bytes) : List Bytes :=
  lines.takeWhile fun line => Bytes.trim line ≠ text "quit"

def IsProgram (line : Bytes) : Prop :=
  Bytes.trim line ≠ [] ∧ Bytes.trim line ≠ text "version"

instance (line : Bytes) : Decidable (IsProgram line) :=
  inferInstanceAs (Decidable (_ ∧ _))

def fault? (line : Bytes) : Option SyntaxError :=
  if IsProgram line then
    match Program.parse line with
    | .error e => some e
    | .ok _ => none
  else none

/-- The lines that are served in full. -/
def servedLines (lines : List Bytes) : List Bytes :=
  (activeLines lines).takeWhile fun line => fault? line = none

def report (lines : List Bytes) : Bytes :=
  ((activeLines lines).findSome? fun line =>
    (fault? line).map fun e => e.diagnostic.render (text "<stdin>") line).getD []

def written (s t : Session) : Bytes :=
  t.state.output.contents.drop s.state.output.contents.length

def valueText (t : Session) (answer : Session.Answer) : Bytes :=
  match answer.value? with
  | some r => (t.object r).inspect
  | none => []

/-- The reply to a line, and the session after it. -/
def reply (fuel : Nat) (line : Bytes) (s : Session) : Bytes × Session :=
  if Bytes.trim line = [] then ([], s)
  else if Bytes.trim line = text "version" then (version ++ text "\n", s)
  else
    let (answer, t) := s.exec fuel line
    (written s t ++ valueText t answer ++ text "\n", t)

def replies (fuel : Nat) : List Bytes → Session → List Bytes × Session
  | [], s => ([], s)
  | line :: rest, s =>
    let (b, t) := reply fuel line s
    let (bs, u) := replies fuel rest t
    (b :: bs, u)

/-- No line of these uses up the bound on nested evaluation. -/
def Halts (fuel : Nat) : List Bytes → Session → Prop
  | [], _ => True
  | line :: rest, s => (IsProgram line → (s.exec fuel line).1 ≠ .finished .outOfFuel) ∧
    Halts fuel rest (reply fuel line s).2

section Loop

variable {fuel : Nat} {prompt line : Bytes} {lines : List Bytes} {a b : Session}

theorem ofLine_eq_nothing (h : Bytes.trim line = []) : Request.ofLine line = .nothing := by
  rw [Request.ofLine, h]
  rfl

theorem ofLine_eq_quit (h : Bytes.trim line = text "quit") : Request.ofLine line = .quit := by
  rw [Request.ofLine, h]
  rfl

theorem ofLine_eq_version (h : Bytes.trim line = text "version") :
    Request.ofLine line = .version := by
  rw [Request.ofLine, h]
  rfl

theorem ofLine_eq_program (h : IsProgram line) (hquit : Bytes.trim line ≠ text "quit") :
    Request.ofLine line = .program line := by
  rw [Request.ofLine]
  simp only [List.isEmpty_iff, if_neg h.1, if_neg hquit, if_neg h.2]

theorem reply_of_isProgram (h : IsProgram line) (s : Session) :
    reply fuel line s =
      (written s (s.exec fuel line).2 ++ valueText (s.exec fuel line).2 (s.exec fuel line).1 ++
        text "\n", (s.exec fuel line).2) := by
  rw [reply, if_neg h.1, if_neg h.2]

/-- The session of the loop is the other one, apart from the log and from what has been written.
There is no limit to what may be written. -/
structure Echoes (a b : Session) : Prop where
  scope : a.scope = b.scope
  state : a.state.Shadows b.state
  limit : a.state.output.limit = none

theorem Echoes.print (h : Echoes a b) (bytes : Bytes) : Echoes (a.print bytes) b where
  scope := h.scope
  state := { h.state with output := h.state.output.append bytes }
  limit := h.limit

theorem Echoes.exec (h : Echoes a b) {p : Program} (hp : Program.parse line = .ok p) (fuel : Nat) :
    (a.exec fuel line).1 = (b.exec fuel line).1 ∧
      Echoes (a.exec fuel line).2 (b.exec fuel line).2 ∧
      (a.exec fuel line).2.state.output.contents =
        a.state.output.contents ++ written b (b.exec fuel line).2 := by
  obtain ⟨ws, houtcome, hstate, ha, hb⟩ := h.state.eval h.limit fuel a.scope p
  rw [h.scope] at houtcome hstate ha hb
  have hexec (s : Session) : s.exec fuel line =
      (.finished ((Node.program p).eval fuel s.scope s.state).1,
        ⟨((Node.program p).eval fuel s.scope s.state).2, s.scope⟩) := Session.exec_of_parse hp
  rw [hexec, hexec, h.scope]
  refine ⟨congrArg Session.Answer.finished houtcome, ⟨rfl, hstate, ?_⟩, ?_⟩
  · dsimp only
    rw [ha]
    exact h.limit
  · simp only [written, ha, hb, Output.contents_extend, List.drop_left]

theorem exists_parse_of_fault? (h : IsProgram line) (hfault : fault? line = none) :
    ∃ p, Program.parse line = .ok p := by
  rw [fault?, if_pos h] at hfault
  cases hp : Program.parse line with
  | ok p => exact ⟨p, rfl⟩
  | error e =>
    rw [hp] at hfault
    cases hfault

theorem exists_value_of_halts (hb : (ordering b.scope True).holds b.state) {p : Program}
    (hp : Program.parse line = .ok p) (hhalts : (b.exec fuel line).1 ≠ .finished .outOfFuel) :
    ∃ r, (b.exec fuel line).1 = .finished (.value r) := by
  have hends := (ordering.recounts hb hb.1.rooted fuel (.program p)
    fun _ => Program.wellFormed_of_parse hp).ends
  rw [Session.exec_of_parse hp] at hhalts ⊢
  rcases Outcome.safe_of_ends hends with hout | ⟨r, hr, -⟩
  · exact absurd (congrArg Session.Answer.finished hout) hhalts
  · exact ⟨r, congrArg Session.Answer.finished hr⟩

theorem ordering_reply (hb : (ordering b.scope True).holds b.state) :
    (ordering (reply fuel line b).2.scope True).holds (reply fuel line b).2.state := by
  unfold reply
  split
  · exact hb
  · split
    · exact hb
    · have hperform := Session.ordering_perform hb (.exec fuel line)
      rwa [← Session.scope_perform b (.exec fuel line)] at hperform

theorem Echoes.serveLine (h : Echoes a b) (hb : (ordering b.scope True).holds b.state)
    (hshort : line.length < lineLimit) (hquit : Bytes.trim (dropReturn line) ≠ text "quit")
    (hfault : fault? (dropReturn line) = none)
    (hhalts : IsProgram (dropReturn line) →
      (b.exec fuel (dropReturn line)).1 ≠ .finished .outOfFuel) :
    ∃ a', Repl.serveLine fuel line a = .next a' ∧ Echoes a' (reply fuel (dropReturn line) b).2 ∧
      a'.state.output.contents =
        a.state.output.contents ++ (reply fuel (dropReturn line) b).1 := by
  rw [Repl.serveLine, if_neg (Nat.not_le.mpr hshort)]
  by_cases hblank : Bytes.trim (dropReturn line) = []
  · rw [ofLine_eq_nothing hblank, reply, if_pos hblank]
    exact ⟨a, rfl, h, (List.append_nil _).symm⟩
  by_cases hversion : Bytes.trim (dropReturn line) = text "version"
  · rw [ofLine_eq_version hversion, reply, if_neg hblank, if_pos hversion]
    exact ⟨_, rfl, h.print _, Output.contents_append _ _⟩
  · have hprogram : IsProgram (dropReturn line) := ⟨hblank, hversion⟩
    obtain ⟨p, hp⟩ := exists_parse_of_fault? hprogram hfault
    obtain ⟨r, hr⟩ := exists_value_of_halts hb hp (hhalts hprogram)
    obtain ⟨hanswer, hechoes, hcontents⟩ := h.exec hp fuel
    rw [ofLine_eq_program hprogram hquit, reply_of_isProgram hprogram]
    rcases hexec : a.exec fuel (dropReturn line) with ⟨answer, t⟩
    rw [hexec] at hanswer hechoes hcontents
    obtain rfl : answer = .finished (.value r) := hanswer.trans hr
    have hvalue : valueText (b.exec fuel (dropReturn line)).2 (b.exec fuel (dropReturn line)).1 =
        (t.object r).inspect := by
      have hstore : (b.exec fuel (dropReturn line)).2.object r = t.object r :=
        congrArg (Store.get · r) hechoes.state.store
      rw [hr, ← hstore]
      rfl
    dsimp only
    rw [hexec]
    refine ⟨_, rfl, hechoes.print _, ?_⟩
    rw [hvalue, List.append_assoc, ← List.append_assoc, ← hcontents]
    exact Output.contents_append _ _

theorem serveLine_of_fault {e : SyntaxError} (hshort : line.length < lineLimit)
    (hquit : Bytes.trim (dropReturn line) ≠ text "quit")
    (hfault : fault? (dropReturn line) = some e) (a : Session) : Repl.serveLine fuel line a =
      .ended ⟨1, e.diagnostic.render (text "<stdin>") (dropReturn line),
        { a with state := a.state.trace fun _ => text "parse failed: " ++ e.describe }⟩ := by
  unfold fault? at hfault
  split at hfault
  · next hprogram =>
    cases hp : Program.parse (dropReturn line) with
    | ok p =>
      rw [hp] at hfault
      cases hfault
    | error e' =>
      rw [hp] at hfault
      cases hfault
      rw [Repl.serveLine, if_neg (Nat.not_le.mpr hshort), ofLine_eq_program hprogram hquit]
      dsimp only
      rw [Session.exec, hp]
  · cases hfault

theorem activeLines_of_quit (h : Bytes.trim line = text "quit") :
    activeLines (line :: lines) = [] := by
  simp [activeLines, h]

theorem activeLines_cons (h : Bytes.trim line ≠ text "quit") :
    activeLines (line :: lines) = line :: activeLines lines := by
  simp [activeLines, h]

theorem servedLines_cons (lines : List Bytes) (hquit : Bytes.trim line ≠ text "quit")
    (hfault : fault? line = none) : servedLines (line :: lines) = line :: servedLines lines := by
  simp [servedLines, activeLines_cons hquit, hfault]

/-- How the loop ends, and what it has written by then. -/
structure Concludes (fuel : Nat) (prompt : Bytes) (lines : List Bytes) (a b : Session)
    (ending : Ending) : Prop where
  failed : (∃ line ∈ activeLines lines, fault? line ≠ none) → ending.code = 1
  passed : (∀ line ∈ activeLines lines, fault? line = none) → ending.code = 0
  errors : ending.errors = report lines
  contents : ending.session.state.output.contents = a.state.output.contents ++
    ((replies fuel (servedLines lines) b).1.map (prompt ++ ·)).flatten ++ prompt
  session : Echoes ending.session (replies fuel (servedLines lines) b).2

/-- There is no line to be served, as the input ends here or the next line asks to quit. -/
theorem Echoes.concludes_of_inactive (h : Echoes a b) (hlines : activeLines lines = []) :
    Concludes fuel prompt lines a b ⟨0, [], a.print prompt⟩ := by
  have hserved : servedLines lines = [] := by rw [servedLines, hlines, List.takeWhile_nil]
  constructor
  case failed =>
    rw [hlines]
    rintro ⟨line, hline, -⟩
    cases hline
  case passed => exact fun _ => rfl
  case errors => rw [report, hlines, List.findSome?_nil, Option.getD_none]
  case contents =>
    rw [hserved, replies, List.map_nil, List.flatten_nil, List.append_nil]
    exact Output.contents_append _ _
  case session =>
    rw [hserved]
    exact h.print prompt

theorem Echoes.concludes_of_fault (h : Echoes a b) {e : SyntaxError}
    (hquit : Bytes.trim line ≠ text "quit") (hfault : fault? line = some e)
    (message : Unit → Bytes) :
    Concludes fuel prompt (line :: lines) a b
      ⟨1, e.diagnostic.render (text "<stdin>") line,
        { a.print prompt with state := (a.print prompt).state.trace message }⟩ := by
  have hactive : activeLines (line :: lines) = line :: activeLines lines := activeLines_cons hquit
  have hserved : servedLines (line :: lines) = [] := by simp [servedLines, hactive, hfault]
  constructor
  case failed => exact fun _ => rfl
  case passed =>
    intro hnone
    rw [hnone line (hactive ▸ List.mem_cons_self)] at hfault
    cases hfault
  case errors => simp [report, hactive, hfault]
  case contents =>
    rw [hserved, replies, List.map_nil, List.flatten_nil, List.append_nil]
    exact Output.contents_append _ _
  case session =>
    rw [hserved]
    exact ⟨h.scope, { (h.print prompt).state with }, h.limit⟩

theorem Concludes.cons {c : Session} {ending : Ending} (hquit : Bytes.trim line ≠ text "quit")
    (hfault : fault? line = none)
    (hc : c.state.output.contents = a.state.output.contents ++ (prompt ++ (reply fuel line b).1))
    (h : Concludes fuel prompt lines c (reply fuel line b).2 ending) :
    Concludes fuel prompt (line :: lines) a b ending := by
  have hactive : activeLines (line :: lines) = line :: activeLines lines := activeLines_cons hquit
  have hserved := servedLines_cons lines hquit hfault
  constructor
  case failed =>
    rintro ⟨line', hline', hne⟩
    rw [hactive] at hline'
    rcases List.mem_cons.mp hline' with rfl | hline'
    · exact absurd hfault hne
    · exact h.failed ⟨line', hline', hne⟩
  case passed =>
    intro hnone
    rw [hactive] at hnone
    exact h.passed (List.forall_mem_cons.mp hnone).2
  case errors =>
    rw [h.errors]
    simp [report, hactive, hfault]
  case contents =>
    rw [h.contents, hc, hserved, replies, List.map_cons, List.flatten_cons,
      List.append_assoc a.state.output.contents]
  case session =>
    rw [hserved]
    exact h.session

theorem Echoes.serveLines (h : Echoes a b) (hb : (ordering b.scope True).holds b.state)
    (hshort : ∀ line ∈ lines, line.length < lineLimit)
    (hhalts : Halts fuel (servedLines (lines.map dropReturn)) b) :
    Concludes fuel prompt (lines.map dropReturn) a b (Repl.serveLines fuel prompt lines a) := by
  induction lines generalizing a b with
  | nil => exact h.concludes_of_inactive rfl
  | cons line rest ih =>
    obtain ⟨hline, hrest⟩ := List.forall_mem_cons.mp hshort
    rw [Repl.serveLines, List.map_cons]
    by_cases hquit : Bytes.trim (dropReturn line) = text "quit"
    · rw [Repl.serveLine, if_neg (Nat.not_le.mpr hline), ofLine_eq_quit hquit]
      exact h.concludes_of_inactive (activeLines_of_quit hquit)
    cases hfault : fault? (dropReturn line) with
    | some e =>
      rw [serveLine_of_fault hline hquit hfault]
      exact h.concludes_of_fault hquit hfault _
    | none =>
      rw [List.map_cons, servedLines_cons _ hquit hfault] at hhalts
      obtain ⟨c, hnext, hechoes, hcontents⟩ :=
        (h.print prompt).serveLine hb hline hquit hfault hhalts.1
      rw [hnext]
      refine .cons hquit hfault ?_ (ih hechoes (ordering_reply hb) hrest hhalts.2)
      rw [hcontents, ← List.append_assoc]
      exact congrArg (· ++ _) (Output.contents_append _ _)

end Loop

section Serve

variable {threshold : Nat} {output : Output} {log : Log} {v : Option Ref} {s : Session}

/-- The loop fails if one of the lines before the first that asks to quit does not parse, and it is
the first such line that is reported. It writes the greeting, then a prompt and the reply to each
line before that one, and one more prompt. Nothing but these lines is run. -/
theorem serve_transcript {fuel : Nat} (options : Options) {input : Bytes}
    (hs : Session.Reached threshold output log v s) (hlimit : s.state.output.limit = none)
    (hshort : ∀ line ∈ inputLines input, line.length < lineLimit)
    (hhalts : Halts fuel (servedLines (scannedLines input)) s) :
    let lines := scannedLines input
    let ending := serve fuel options input s
    ((∃ line ∈ activeLines lines, fault? line ≠ none) → ending.code = 1) ∧
    ((∀ line ∈ activeLines lines, fault? line = none) → ending.code = 0) ∧
    ending.errors = report lines ∧
    ending.session.state.output.contents =
      s.state.output.contents ++ (if options.banner then banner else []) ++
        ((replies fuel (servedLines lines) s).1.map (options.prompt ++ ·)).flatten ++
        options.prompt ∧
    ending.session.scope = (replies fuel (servedLines lines) s).2.scope ∧
    ending.session.state.Shadows (replies fuel (servedLines lines) s).2.state := by
  have hechoes : Echoes (greet options s) s := by
    have hsame : Echoes s s := ⟨rfl, .refl s.state, hlimit⟩
    unfold greet
    split
    · exact hsame.print banner
    · exact hsame
  have hgreet : (greet options s).state.output.contents =
      s.state.output.contents ++ if options.banner then banner else [] := by
    unfold greet
    split
    · exact Output.contents_append _ _
    · exact (List.append_nil _).symm
  have h : Concludes fuel options.prompt (scannedLines input) (greet options s) s
      (serve fuel options input s) := hechoes.serveLines hs.ordering hshort hhalts
  have hcontents := h.contents
  rw [hgreet] at hcontents
  exact ⟨h.failed, h.passed, h.errors, hcontents, h.session.scope, h.session.state⟩

def failingLine : Bytes := text "print('x'); y"

def brokenLine : Bytes := text "let a ="

/-- A blank line, the version, two programs of which the second does not parse, and one more. -/
def mixed : Bytes :=
  text " \nversion\r\n" ++ failingLine ++ text "\n" ++ brokenLine ++ text "\nprint('z')\n"

theorem scannedLines_mixed : scannedLines mixed =
    [text " ", text "version", failingLine, brokenLine, text "print('z')"] := by
  decide +kernel

theorem isProgram_failingLine : IsProgram failingLine := by
  decide +kernel

theorem fault?_failingLine : fault? failingLine = none := by
  rw [fault?, if_pos isProgram_failingLine]
  cbv

theorem fault?_brokenLine : fault? brokenLine ≠ none := by
  have hprogram : IsProgram brokenLine := by decide +kernel
  rw [fault?, if_pos hprogram]
  cbv
  exact Option.some_ne_none _

theorem reply_failingLine :
    (reply 10 failingLine started).1 = text "x\nERROR: variable not defined: y\n" := by
  rw [reply_of_isProgram isProgram_failingLine]
  cbv

theorem halts_failingLine : (started.exec 10 failingLine).1 ≠ .finished .outOfFuel := by
  cbv
  rintro ⟨⟩

theorem activeLines_mixed : activeLines (scannedLines mixed) = scannedLines mixed := by
  decide +kernel

theorem servedLines_mixed : servedLines (scannedLines mixed) =
    [text " ", text "version", failingLine] := by
  have hblank : fault? (text " ") = none := if_neg (by decide +kernel)
  have hversion : fault? (text "version") = none := if_neg (by decide +kernel)
  rw [servedLines, activeLines_mixed, scannedLines_mixed]
  simp [hblank, hversion, fault?_failingLine, fault?_brokenLine]

theorem reached_started : Session.Reached 1 .unlimited (.start .info) none started :=
  .new

theorem serve_transcript_mixed :
    let ending := serve 10 prompting mixed started
    ending.code = 1 ∧ ending.errors = report (scannedLines mixed) ∧
      ending.session.state.output.contents =
        text "> > 1.0.1\n> x\nERROR: variable not defined: y\n> " := by
  have hblank (s : Session) : reply 10 (text " ") s = ([], s) := if_pos (by decide +kernel)
  have hversion (s : Session) : reply 10 (text "version") s = (text "1.0.1\n", s) :=
    (if_neg (by decide +kernel)).trans (if_pos (by decide +kernel))
  have hshort : ∀ line ∈ inputLines mixed, line.length < lineLimit := by decide +kernel
  have hhalts : Halts 10 (servedLines (scannedLines mixed)) started := by
    rw [servedLines_mixed, Halts, hblank, Halts, hversion, Halts]
    exact ⟨fun h => absurd h (by decide +kernel), fun h => absurd h (by decide +kernel),
      fun _ => halts_failingLine, trivial⟩
  have hfault : ∃ line ∈ activeLines (scannedLines mixed), fault? line ≠ none := by
    rw [activeLines_mixed, scannedLines_mixed]
    exact ⟨brokenLine, by simp, fault?_brokenLine⟩
  obtain ⟨hcode, -, herrors, hcontents, -⟩ :=
    serve_transcript prompting reached_started rfl hshort hhalts
  refine ⟨hcode hfault, herrors, ?_⟩
  have hreplies : (replies 10 (servedLines (scannedLines mixed)) started).1 =
      [[], text "1.0.1\n", text "x\nERROR: variable not defined: y\n"] := by
    simp only [servedLines_mixed, replies, hblank, hversion, reply_failingLine]
  rw [hcontents, hreplies]
  decide +kernel

end Serve

section Overrun

def returned (n : Nat) : Bytes := List.replicate n 0x20 ++ [0x0D, 0x0A]

theorem inputLines_returned (n : Nat) :
    inputLines (returned n) = [List.replicate n 0x20 ++ [0x0D]] := by
  have hlines : Bytes.lines (returned n) = [List.replicate n 0x20 ++ [0x0D], []] := by
    induction n with
    | zero => decide
    | succ n ih =>
      rw [returned, List.replicate_succ, List.cons_append, Bytes.lines_cons (by decide)]
      exact congrArg _ ih
  rw [inputLines, hlines]
  rfl

theorem scannedLines_returned (n : Nat) :
    scannedLines (returned n) = [List.replicate n 0x20] := by
  rw [scannedLines, inputLines_returned, List.map_singleton, dropReturn]
  simp

theorem trim_replicate (n : Nat) : Bytes.trim (List.replicate n 0x20) = [] := by
  have hfront : Bytes.dropMarks Bytes.blanks n (List.replicate n 0x20) = [] := by
    have h := dropMarks_padded n 0 []
    rwa [List.append_nil] at h
  rw [Bytes.trim, List.length_replicate, hfront]
  rfl

theorem code_serve_returned {n fuel : Nat} {options : Options} {s : Session}
    (hn : lineLimit ≤ n + 1) : (serve fuel options (returned n) s).code = 1 := by
  have hlength : (List.replicate n 0x20 ++ [0x0D] : Bytes).length = n + 1 := by simp
  rw [serve, inputLines_returned, serveLines, serveLine, if_pos (hlength ▸ hn)]

theorem trim_replicate_ne_quit (n : Nat) : Bytes.trim (List.replicate n 0x20) ≠ text "quit" := by
  rw [trim_replicate]
  decide

theorem not_isProgram_replicate (n : Nat) : ¬ IsProgram (List.replicate n 0x20) :=
  fun h => h.1 (trim_replicate n)

theorem fault?_replicate (n : Nat) : fault? (List.replicate n 0x20) = none :=
  if_neg (not_isProgram_replicate n)

theorem activeLines_returned (n : Nat) :
    activeLines (scannedLines (returned n)) = [List.replicate n 0x20] := by
  rw [scannedLines_returned, activeLines_cons (trim_replicate_ne_quit n)]
  rfl

theorem servedLines_returned (n : Nat) :
    servedLines (scannedLines (returned n)) = [List.replicate n 0x20] := by
  rw [scannedLines_returned, servedLines_cons [] (trim_replicate_ne_quit n) (fault?_replicate n)]
  rfl

/-- A blank line of 65535 bytes is not too long, but with its carriage return it is. The loop fails,
though there is no program on the line. -/
theorem serve_returned :
    Session.Reached 1 .unlimited (.start .info) none started ∧
    started.state.output.limit = none ∧
    (∀ line ∈ scannedLines (returned 65535), line.length < lineLimit) ∧
    Halts 10 (servedLines (scannedLines (returned 65535))) started ∧
    (∀ line ∈ activeLines (scannedLines (returned 65535)), fault? line = none) ∧
    (serve 10 prompting (returned 65535) started).code ≠ 0 := by
  rw [code_serve_returned (Nat.le_refl lineLimit), activeLines_returned, servedLines_returned,
    scannedLines_returned]
  refine ⟨reached_started, rfl, ?_, ?_, ?_, Nat.one_ne_zero⟩
  · rw [List.forall_mem_singleton, List.length_replicate]
    exact Nat.lt_succ_self 65535
  · exact ⟨fun h => absurd h (not_isProgram_replicate 65535), trivial⟩
  · exact List.forall_mem_singleton.mpr (fault?_replicate 65535)

end Overrun

end CornScript.Repl
