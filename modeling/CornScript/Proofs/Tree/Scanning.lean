import CornScript.Proofs.Tree.Tokens

/-! # Scanning a printed tree

By induction on the tree, the text of each part is scanned as its tokens. An expression needs to be
followed by something that no token goes on in, and so does a statement without a semicolon; a block
or a statement with one can be followed by anything.
-/

namespace CornScript

open Token (Kind sample Lexes Breaks mark?)
open Printer (commas pairTokens callTokens elseToken)

variable {w rest : Bytes} {ts : List Token} {ws : List Bytes} {tss : List (List Token)} {t : Token}

theorem Ident.Genuine.spells {id : Ident} (h : id.Genuine) :
    Spells id.name [id.token.unplaced] := by
  rw [h.name]
  exact .of_genuine h.token (h.kind ▸ nofun)

/-! ## Lists with commas -/

theorem separates_comma : Separates Printer.comma [sample .comma] :=
  ⟨Lexes.marks rfl, rfl⟩

theorem Spells.join (h : List.Forall₂ Spells ws tss) :
    Spells (Bytes.join Printer.comma ws) (commas tss) := by
  cases h with
  | nil => exact ⟨fun _ => .nil⟩
  | cons hw htail => exact join_cons separates_comma hw htail

theorem Spells.pairs {keys values : List Bytes} {kss vss : List (List Token)}
    (hkeys : List.Forall₂ Spells keys kss) (hvalues : List.Forall₂ Spells values vss) :
    List.Forall₂ Spells (List.zipWith (fun k v => k ++ text ": " ++ v) keys values)
      (List.zipWith pairTokens kss vss) := by
  induction hkeys generalizing values vss with
  | nil => exact .nil
  | cons hk _ ih =>
    cases hvalues with
    | nil => exact .nil
    | @cons v _ _ _ hv hvalues =>
      refine .cons ⟨fun {rest} hrest => ?_⟩ (ih hvalues)
      have hcolon : Lexes (text ": ") [sample .colon] (v ++ rest) := .marks rfl
      exact (((hk.lexes (.of_head rfl)).append hcolon).append (hv.lexes hrest)).congr
        (List.append_assoc ..)

theorem Spells.params {ps : List Ident} (h : ∀ p ∈ ps, p.Genuine) :
    List.Forall₂ Spells (ps.map (·.name)) (ps.map fun p => [p.token.unplaced]) := by
  induction ps with
  | nil => exact .nil
  | cons p ps ih =>
    obtain ⟨hp, hps⟩ := List.forall_mem_cons.mp h
    exact .cons hp.spells (ih hps)

/-! ## Trees -/

theorem BinaryOp.symbol_eq {kind : Kind} {op : BinaryOp} {own : Level}
    (h : kind.binary? = some (op, own)) :
    (op.symbol, kind) ∈ Token.operators ++ Kind.words ∧ kind ≠ .string := by
  cases kind <;> cases h <;> decide

theorem UnaryOp.symbol_eq {kind : Kind} {op : UnaryOp} (h : kind.unary? = some op) :
    (op.symbol, kind) ∈ Token.operators ∧ op.symbol ≠ [0x2F] := by
  cases kind <;> cases h <;> decide

/-- The operator in front of an operand is read, since no printed expression begins with a `=`. -/
theorem UnaryOp.lexes {op : UnaryOp} (ht : t.Genuine) (hop : t.kind.unary? = some op)
    (hopens : OpensExpr ts) (hw : Lexes w ts rest) : Lexes op.symbol [t.unplaced] (w ++ rest) := by
  obtain ⟨hmem, hslash⟩ := UnaryOp.symbol_eq hop
  obtain ⟨u, us, rfl, hu⟩ := hopens
  have hequal : (w ++ rest).head? ≠ some 0x3D := by
    refine hw.head_ne ?_ ?_ <;> intro hk <;> rw [hk] at hu <;> cases hu
  rw [ht.unplaced_eq rfl (List.mem_append_left _ hmem)]
  exact .operator hmem (absurd · hequal) hslash

theorem lexes_else (rest : Bytes) : Lexes (text " else ") [elseToken] rest := by
  have hletters : (text "lse").all Token.Lexeme.isWordByte = true := rfl
  have hgenuine : elseToken.Genuine :=
    ⟨⟨text "else", .word (b := 0x65) rfl (List.all_eq_true.mp hletters)⟩, by decide⟩
  have hword : Spells (text "else") [elseToken] := .of_genuine hgenuine nofun
  have hparts : text " else " = text " " ++ text "else" ++ text " " := rfl
  rw [hparts]
  exact .append (.append (.marks rfl) (hword.lexes (.of_head rfl))) (.marks rfl)

theorem lexes_assign (rest : Bytes) : Lexes (text " = ") [sample .assign] rest := by
  have hassign : Lexes (text "=") [sample .assign] (text " " ++ rest) :=
    .operator (by decide) nofun (by decide)
  have hparts : text " = " = text " " ++ text "=" ++ text " " := rfl
  rw [hparts]
  exact .append (.append (.marks rfl) hassign) (.marks rfl)

theorem Expr.spells_call {t : Token} {f : Expr} {args : List Expr}
    (h : (Expr.call t f args).Genuine) (hcallee : Spells f.print f.tokens)
    (hlist : List.Forall₂ Spells (Expr.printAll args) (Expr.tokensAll args)) :
    Spells (Expr.call t f args).print (Expr.call t f args).tokens := by
  obtain ⟨⟨ht, hcall⟩, hf, -⟩ := h
  rw [Expr.print, Expr.tokens]
  rcases hcall with hk | ⟨hk, -⟩ | ⟨hk, name, receiver, others, rfl, rfl⟩
  · rw [Printer.callTokens_paren hk, ht.unplaced_eq hk (w := text "(") (by decide)]
    simp only [Printer.call, hk]
    refine ⟨fun {rest} _ => .congr (.append (.append (.append (hcallee.lexes ?_) (.marks rfl))
      ((Spells.join hlist).lexes ?_)) (.marks rfl)) ?_⟩
    · exact .of_head rfl
    · exact .of_head rfl
    · simp only [List.append_assoc]
      rfl
  · rw [Printer.callTokens_bracket hk, ht.unplaced_eq hk (w := text "[") (by decide)]
    simp only [Printer.call, hk]
    refine ⟨fun {rest} _ => .congr (.append (.append (.append (.append (.marks rfl)
      (hcallee.lexes ?_)) (.marks rfl)) ((Spells.join hlist).lexes ?_)) (.marks rfl)) ?_⟩
    · exact .of_head rfl
    · exact .of_head rfl
    · simp only [List.append_assoc]
      rfl
  · rw [Expr.Genuine] at hf
    obtain ⟨b, v, hname, hb⟩ := hf.token.exists_letter hf.kind
    rw [← hf.name] at hname
    rw [Expr.tokensAll, Printer.callTokens_dot hk, ht.unplaced_eq hk (w := text ".") (by decide)]
    rw [Expr.printAll] at hlist ⊢
    rw [Expr.tokensAll] at hlist
    cases hlist with
    | cons hreceiver hlist =>
      simp only [Printer.call, hk]
      refine ⟨fun {rest} _ => .congr (.append (.append (.append (.append (.append
        (hreceiver.lexes ?_) (.marks rfl)) (hcallee.lexes ?_)) (.marks rfl))
        ((Spells.join hlist).lexes ?_)) (.marks rfl)) ?_⟩
      · rw [Expr.print, hname]
        exact .point_letter hb
      · exact .of_head rfl
      · exact .of_head rfl
      · simp only [List.append_assoc]
        rfl

variable {q : List Stmt → Bool}

mutual

theorem Expr.spells (e : Expr) (h : e.Genuine) (hq : e.every Expr.isUnquoted q) :
    Spells e.print e.tokens := by
  cases e with
  | missing => cases h
  | ident id =>
    rw [Expr.Genuine] at h
    exact h.spells
  | number t v => exact .of_genuine h.1 (h.2.1 ▸ nofun)
  | string t v =>
    obtain ⟨ht, hkind, rfl⟩ := h
    have hquote : 0x22 ∉ t.literal := by simpa [Expr.every, Expr.isUnquoted] using hq
    exact ⟨fun _ => ht.lexes_quoted hkind (.inl rfl) hquote⟩
  | boolean t b =>
    refine .of_genuine h.1 ?_
    rw [h.2]
    split <;> nofun
  | null t =>
    have hliteral : t.literal = text "null" := h.1.literal_eq (h.2 ▸ by decide)
    rw [Expr.print, ← hliteral]
    exact .of_genuine h.1 (h.2 ▸ nofun)
  | array t es =>
    obtain ⟨⟨ht, hkind⟩, hes⟩ := h
    rw [Expr.every, Bool.and_eq_true] at hq
    have hlist := Spells.join (Expr.spellsAll es hes hq.2)
    rw [Expr.print, Expr.tokens, ht.unplaced_eq hkind (w := text "[") (by decide)]
    exact ⟨fun _ => ((Lexes.marks rfl).append (hlist.lexes (.of_head rfl))).append (.marks rfl)⟩
  | hash t ks vs =>
    obtain ⟨⟨ht, hkind⟩, -, hks, hvs⟩ := h
    simp only [Expr.every, Bool.and_eq_true] at hq
    have hpairs := Spells.join (Spells.pairs (Expr.spellsAll ks hks hq.1.2)
      (Expr.spellsAll vs hvs hq.2))
    rw [Expr.print, Expr.tokens, ht.unplaced_eq hkind (w := text "\x7b") (by decide)]
    exact ⟨fun _ => ((Lexes.marks rfl).append (hpairs.lexes (.of_head rfl))).append (.marks rfl)⟩
  | unary t op e =>
    obtain ⟨⟨ht, hop⟩, he⟩ := h
    rw [Expr.every, Bool.and_eq_true] at hq
    refine ⟨fun {rest} _ => ?_⟩
    have hoperand : Lexes e.print e.tokens (text ")" ++ rest) :=
      (Expr.spells e he hq.2).lexes (.of_head rfl)
    have hsign := UnaryOp.lexes ht hop (Expr.opens_tokens e he) hoperand
    exact (((Lexes.marks rfl).append hsign).append hoperand).append (.marks rfl)
  | binary t l op r =>
    obtain ⟨⟨ht, own, hop⟩, hl, hr⟩ := h
    simp only [Expr.every, Bool.and_eq_true] at hq
    obtain ⟨hmem, hkind⟩ := BinaryOp.symbol_eq hop
    have hsymbol : Spells op.symbol [t.unplaced] := by
      rw [← ht.literal_eq hmem]
      exact .of_genuine ht hkind
    have hleft := Expr.spells l hl hq.1.2
    have hright := Expr.spells r hr hq.2
    refine ⟨fun _ => .congr (.append (.append (.append (.append (.append (.append (.marks rfl)
      (hleft.lexes ?_)) (.marks rfl)) (hsymbol.lexes ?_)) (.marks rfl)) (hright.lexes ?_))
      (.marks rfl)) ?_⟩
    · exact .of_head rfl
    · exact .of_head rfl
    · exact .of_head rfl
    · simp only [List.append_assoc]
      rfl
  | cond t c b a =>
    obtain ⟨ht, hkind⟩ : t.Genuine ∧ t.kind = .ifWord := by cases a <;> exact h.1
    have hword : Spells (text "if") [t.unplaced] := by
      rw [← ht.literal_eq (w := text "if") (hkind ▸ by decide)]
      exact .of_genuine ht (hkind ▸ nofun)
    have hparts : text "if (" = text "if" ++ text " (" := rfl
    cases a with
    | none =>
      obtain ⟨-, hc, hb⟩ := h
      simp only [Expr.every, Bool.and_eq_true] at hq
      have hcondition := Expr.spells c hc hq.1.2
      refine ⟨fun {rest} _ => ?_⟩
      have hblock := Block.lexes b hb hq.2 rest
      rw [Expr.print, hparts]
      refine .congr (.append (.append (.append (.append (hword.lexes ?_) (.marks rfl))
        (hcondition.lexes ?_)) (.marks rfl)) hblock) ?_
      · exact .of_head rfl
      · exact .of_head rfl
      · simp only [List.append_assoc]
        rfl
    | some a =>
      obtain ⟨-, hc, hb, ha⟩ := h
      simp only [Expr.every, Bool.and_eq_true] at hq
      have hcondition := Expr.spells c hc hq.1.1.2
      refine ⟨fun {rest} _ => ?_⟩
      have hother := Block.lexes a ha hq.2 rest
      have hblock := Block.lexes b hb hq.1.2 (text " else " ++ (a.print ++ rest))
      have helse := lexes_else (a.print ++ rest)
      rw [Expr.print, hparts]
      refine .congr (.append (.append (.append (.append (.append (.append (hword.lexes ?_)
        (.marks rfl)) (hcondition.lexes ?_)) (.marks rfl)) hblock) helse) hother) ?_
      · exact .of_head rfl
      · exact .of_head rfl
      · simp only [List.append_assoc]
        rfl
  | function t ps b =>
    obtain ⟨⟨ht, hkind⟩, hps, hb⟩ := h
    rw [Expr.every, Bool.and_eq_true] at hq
    have hword : Spells t.literal [t.unplaced] := .of_genuine ht (hkind ▸ nofun)
    have hnames := Spells.join (Spells.params hps)
    refine ⟨fun {rest} _ => ?_⟩
    have hblock := Block.lexes b hb hq.2 rest
    refine .congr (.append (.append (.append (.append (hword.lexes ?_) (.marks rfl))
      (hnames.lexes ?_)) (.marks rfl)) hblock) ?_
    · exact .of_head rfl
    · exact .of_head rfl
    · simp only [List.append_assoc]
      rfl
  | call t f args =>
    simp only [Expr.every, Bool.and_eq_true] at hq
    exact Expr.spells_call h (Expr.spells f h.2.1 hq.1.2) (Expr.spellsAll args h.2.2 hq.2)

theorem Expr.spellsAll (es : List Expr) (h : Expr.GenuineAll es)
    (hq : Expr.everyAll Expr.isUnquoted q es) :
    List.Forall₂ Spells (Expr.printAll es) (Expr.tokensAll es) := by
  cases es with
  | nil => exact .nil
  | cons e es =>
    rw [Expr.everyAll, Bool.and_eq_true] at hq
    exact .cons (Expr.spells e h.1 hq.1) (Expr.spellsAll es h.2 hq.2)

theorem Block.lexes (b : Block) (h : b.Genuine) (hq : b.every Expr.isUnquoted q) (rest : Bytes) :
    Lexes b.print b.tokens rest := by
  cases b with
  | mk t body =>
    obtain ⟨⟨ht, hkind⟩, hbody⟩ := h
    rw [Block.every, Bool.and_eq_true] at hq
    rw [Block.print, Block.tokens, ht.unplaced_eq hkind (w := text "\x7b") (by decide)]
    have hall := Stmt.lexesAll body hbody hq.2 (text "\x7d" ++ rest)
    exact ((Lexes.marks rfl).append hall).append (.marks rfl)

theorem Stmt.lexesAll (body : List Stmt) (h : Stmt.GenuineAll body)
    (hq : Stmt.everyAll Expr.isUnquoted q body) (rest : Bytes) :
    Lexes (Stmt.printAll body) (Stmt.tokensAll body) rest := by
  cases body with
  | nil => exact .nil
  | cons st body =>
    rw [Stmt.everyAll, Bool.and_eq_true] at hq
    have hall := Stmt.lexesAll body h.2 hq.2 rest
    have hfirst : Lexes st.print st.tokens (text " " ++ (Stmt.printAll body ++ rest)) :=
      Stmt.lexes st h.1 hq.1 (.inr (.of_head rfl))
    exact ((hfirst.append (.marks rfl)).append hall).congr (by simp only [List.append_assoc]; rfl)

/-- A semicolon ends a statement in front of whatever follows it. -/
theorem Stmt.lexes (st : Stmt) (h : st.Genuine) (hq : st.every Expr.isUnquoted q) {rest : Bytes}
    (hrest : st.isTerminated ∨ Breaks rest) : Lexes st.print st.tokens rest := by
  cases st with
  | bind t target v =>
    obtain ⟨⟨ht, hkind⟩, htarget, hv⟩ := h
    have hword : Spells t.literal [t.unplaced] := .of_genuine ht (hkind ▸ nofun)
    have hvalue := Expr.spells v hv hq
    refine .congr (.append (.append (.append (.append (.append (hword.lexes ?_) (.marks rfl))
      (htarget.spells.lexes ?_)) (lexes_assign _)) (hvalue.lexes ?_)) (.marks rfl)) ?_
    · exact .of_head rfl
    · exact .of_head rfl
    · exact .of_head rfl
    · simp only [List.append_assoc]
      rfl
  | give t v =>
    obtain ⟨⟨ht, hkind⟩, hv⟩ := h
    have hword : Spells t.literal [t.unplaced] := .of_genuine ht (hkind ▸ nofun)
    have hvalue := Expr.spells v hv hq
    refine .congr (.append (.append (.append (hword.lexes ?_) (.marks rfl)) (hvalue.lexes ?_))
      (.marks rfl)) ?_
    · exact .of_head rfl
    · exact .of_head rfl
    · simp only [List.append_assoc]
      rfl
  | expr t v =>
    have hbreaks : Breaks rest := hrest.resolve_left nofun
    exact (Expr.spells v h hq).lexes hbreaks
  | block b => cases h

end

/-- Where nothing stands between statements, all but the last must have a semicolon at their end. -/
theorem Stmt.lexes_flatten (body : List Stmt) (h : Stmt.GenuineAll body)
    (hq : Stmt.everyAll Expr.isUnquoted q body) (hterminated : Stmt.areTerminated body) :
    Lexes (body.map Stmt.print).flatten (Stmt.tokensAll body) [] := by
  induction body with
  | nil => exact .nil
  | cons st body ih =>
    rw [Stmt.everyAll, Bool.and_eq_true] at hq
    rw [List.map_cons, List.flatten_cons, Stmt.tokensAll]
    cases body with
    | nil => exact (Stmt.lexes st h.1 hq.1 (.inr .nil)).append .nil
    | cons st' body =>
      rw [Stmt.areTerminated, List.dropLast_cons_cons, List.all_cons, Bool.and_eq_true]
        at hterminated
      exact (Stmt.lexes st h.1 hq.1 (.inl hterminated.1)).append (ih h.2 hq.2 hterminated.2)

theorem Program.lexes {p : Program} (h : Stmt.GenuineAll p.body)
    (hp : p.every Expr.isUnquoted Stmt.areTerminated) :
    Lexes p.print (Stmt.tokensAll p.body) [] := by
  rw [every, Bool.and_eq_true] at hp
  exact Stmt.lexes_flatten p.body h hp.2 hp.1

end CornScript
