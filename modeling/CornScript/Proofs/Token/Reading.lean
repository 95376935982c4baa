import CornScript.Proofs.Token.Scan
import CornScript.Token.Reader
import Mathlib.Data.List.TakeWhile

/-! # Reading ends

Each call of a reader either hands out the end of input, and then the reader stays as it is, or
leaves less to be read. A fault leaves nothing to be read at all. So the end of input comes after at
most as many calls as there are bytes, and nothing but the end of input follows it.
-/

namespace CornScript.Token

theorem Kind.fault?_eq_none_iff {kind : Kind} : kind.fault? = none ↔ kind.isIllegal = false := by
  cases kind <;> simp [fault?, isIllegal]

theorem Kind.fault?_eq_some_iff {kind : Kind} {fault : Fault} :
    kind.fault? = some fault ↔ kind = .illegal fault := by
  cases kind <;> simp [fault?]

namespace Reader

variable {r r' : Reader} {source : Bytes} {t : Token} {e : Fault × Pos} {i j k m : Nat}

def unread (r : Reader) : Nat :=
  if r.fault.isSome then 0 else r.rest.length

/-- What one call does: the token that it hands out, and the reader for the next call. -/
inductive Call (r : Reader) : Token × Reader → Prop where
  /-- A fault was met before. -/
  | stopped {e : Fault × Pos} : r.fault = some e → Call r (endAt r.pos, r)
  /-- Nothing but blanks and comments is left. -/
  | ended {q : Pos} : r.fault = none → skip false r.rest r.pos = ([], q) →
    Call r (endAt q, ⟨[], q, none⟩)
  /-- A token is read. -/
  | plain {t : Token} {r' : Reader} : r.fault = none → t.Plain → r'.fault = none →
    r'.rest.length < r.rest.length → Call r (t, r')
  /-- A fault is met. -/
  | faulty {fault : Fault} {literal : Bytes} {q : Pos} {r' : Reader} : r.fault = none →
    r.rest ≠ [] → r'.fault = some (fault, q) → Call r (⟨.illegal fault, literal, q⟩, r')

theorem call_next (r : Reader) : Call r r.next := by
  unfold next
  cases hf : r.fault with
  | some e => exact .stopped hf
  | none =>
    have hle := length_skip_le false r.rest r.pos
    dsimp only
    split
    · next q hskip => exact .ended hf hskip
    · next b rest q hskip =>
      rw [hskip, List.length_cons] at hle
      have hw := Lexeme.width_front_pos b rest
      cases hk : (Lexeme.front b rest).kind.fault? with
      | none =>
        refine .plain hf ⟨Lexeme.kind_front_ne_endOfInput b rest, Kind.fault?_eq_none_iff.mp hk⟩
          rfl ?_
        simp only [List.length_drop, List.length_cons]
        omega
      | some fault =>
        rw [Kind.fault?_eq_some_iff.mp hk]
        refine .faulty hf ?_ rfl
        rintro hnil
        simp [hnil] at hle

section Call

variable {n : Token × Reader}

theorem Call.next_eq (hc : Call r n) (h : n.1.kind = .endOfInput) : n.2.next = n := by
  cases hc with
  | stopped hf =>
    unfold next
    rw [hf]
  | ended => rfl
  | plain _ hplain => exact absurd h hplain.1
  | faulty => cases h

theorem Call.unread_lt (hc : Call r n) (h : n.1.kind ≠ .endOfInput) : n.2.unread < r.unread := by
  cases hc with
  | stopped => exact absurd rfl h
  | ended => exact absurd rfl h
  | plain hf _ hf' hlt => simpa [unread, hf, hf'] using hlt
  | faulty hf hne hf' => simpa [unread, hf, hf', List.length_pos_iff] using hne

theorem Call.of_fault (hc : Call r n) (h : r.fault = some e) :
    n.1.kind = .endOfInput ∧ n.2.fault = some e := by
  cases hc with
  | stopped => exact ⟨rfl, h⟩
  | ended hf | plain hf | faulty hf =>
    rw [h] at hf
    cases hf

/-- A fault is met exactly by the call that hands out the illegal token for it. -/
theorem Call.fault_eq (hc : Call r n) (h : r.fault = none) :
    n.2.fault = n.1.kind.fault?.map (·, n.1.pos) := by
  cases hc with
  | stopped hf =>
    rw [h] at hf
    cases hf
  | ended => rfl
  | plain _ hplain hf' =>
    rw [hf', Kind.fault?_eq_none_iff.mpr hplain.2]
    rfl
  | faulty _ _ hf' => exact hf'

end Call

theorem after_add (i j : Nat) (r : Reader) : after (i + j) r = after j (after i r) := by
  induction i generalizing r with
  | zero => rw [Nat.zero_add, after]
  | succ i ih =>
    rw [Nat.succ_add, after, after]
    exact ih r.next.2

theorem after_succ (k : Nat) (r : Reader) : after (k + 1) r = (after k r).next.2 :=
  after_add k 1 r

theorem token_add (r : Reader) (i j : Nat) : r.token (i + j) = (after i r).token j := by
  rw [token, token, after_add]

theorem exists_endOfInput (r : Reader) : ∃ k ≤ r.unread, (r.token k).kind = .endOfInput := by
  by_cases h : r.next.1.kind = .endOfInput
  · exact ⟨0, Nat.zero_le _, h⟩
  · have hlt := (call_next r).unread_lt h
    obtain ⟨k, hk, hend⟩ := exists_endOfInput r.next.2
    exact ⟨k + 1, by omega, hend⟩
termination_by r.unread

theorem after_of_endOfInput (h : r.next.1.kind = .endOfInput) (k : Nat) :
    after (k + 1) r = r.next.2 := by
  induction k with
  | zero => rfl
  | succ k ih => rw [after_succ, ih, (call_next r).next_eq h]

theorem token_of_endOfInput (h : (r.token k).kind = .endOfInput) (hm : k ≤ m) :
    r.token m = r.token k := by
  obtain ⟨d, rfl⟩ := Nat.exists_eq_add_of_le hm
  rw [token_add]
  cases d with
  | zero => rfl
  | succ d =>
    rw [token, after_of_endOfInput h, (call_next _).next_eq h]
    rfl

theorem fault_after_of_eq_some (h : (after k r).fault = some e) (hm : k ≤ m) :
    (after m r).fault = some e := by
  induction hm with
  | refl => exact h
  | step _ ih =>
    rw [after_succ]
    exact ((call_next _).of_fault ih).2

/-- The fault that a reader holds is that of the illegal token among those handed out. -/
theorem fault_after_iff (hr : r.fault = none) : (after k r).fault = some e ↔
    ∃ i < k, (r.token i).kind = .illegal e.1 ∧ (r.token i).pos = e.2 := by
  have hcall (i : Nat) (hi : (after i r).fault = none) : (after (i + 1) r).fault = some e ↔
      (r.token i).kind = .illegal e.1 ∧ (r.token i).pos = e.2 := by
    rw [after_succ, (call_next _).fault_eq hi, Option.map_eq_some_iff, ← token]
    constructor
    · rintro ⟨fault, hfault, rfl⟩
      exact ⟨Kind.fault?_eq_some_iff.mp hfault, rfl⟩
    · rintro ⟨hkind, hpos⟩
      exact ⟨e.1, Kind.fault?_eq_some_iff.mpr hkind, Prod.ext rfl hpos⟩
  induction k with
  | zero => simp [after, hr]
  | succ k ih =>
    cases hf : (after k r).fault with
    | none =>
      rw [hf] at ih
      rw [hcall k hf]
      constructor
      · exact fun h => ⟨k, Nat.lt_succ_self k, h⟩
      · rintro ⟨i, hi, h⟩
        rcases Nat.lt_succ_iff_lt_or_eq.mp hi with hlt | rfl
        · exact absurd (ih.mpr ⟨i, hlt, h⟩) nofun
        · exact h
    | some e' =>
      have hend : (r.token k).kind = .endOfInput := ((call_next _).of_fault hf).1
      rw [fault_after_of_eq_some hf (Nat.le_succ k), ← hf]
      refine ih.trans ?_
      constructor
      · exact fun ⟨i, hi, h⟩ => ⟨i, Nat.lt_succ_of_lt hi, h⟩
      · rintro ⟨i, hi, h⟩
        rcases Nat.lt_succ_iff_lt_or_eq.mp hi with hlt | rfl
        · exact ⟨i, hlt, h⟩
        · rw [hend] at h
          cases h.1

theorem unread_start_le (source : Bytes) : (start source).unread ≤ source.length :=
  (List.takeWhile_prefix _).length_le

theorem kind_token_succ_of_illegal (hr : r.fault = none) (h : (r.token i).kind.isIllegal = true) :
    (r.token (i + 1)).kind = .endOfInput := by
  obtain ⟨fault, hkind⟩ := Kind.exists_of_isIllegal h
  have hfault : (after (i + 1) r).fault = some (fault, (r.token i).pos) :=
    (fault_after_iff hr).mpr ⟨i, Nat.lt_succ_self i, hkind, rfl⟩
  exact ((call_next _).of_fault hfault).1

theorem illegal_unique_of_le (hr : r.fault = none) (hi : (r.token i).kind.isIllegal = true)
    (hj : (r.token j).kind.isIllegal = true) (hle : i ≤ j) : i = j := by
  rcases Nat.eq_or_lt_of_le hle with he | hlt
  · exact he
  · have hend := kind_token_succ_of_illegal hr hi
    rw [token_of_endOfInput hend hlt, hend] at hj
    cases hj

theorem next_of_skip_cons {s rest : Bytes} {p q : Pos} {b : UInt8}
    (h : skip false s p = (b :: rest, q)) : next ⟨s, p, none⟩ =
      let lexeme := Lexeme.front b rest
      (⟨lexeme.kind, lexeme.literal, q⟩,
        ⟨(b :: rest).drop lexeme.width, q.after ((b :: rest).take lexeme.width),
          lexeme.kind.fault?.map (·, q)⟩) := by
  simp only [next, h]

theorem exists_scanFrom_eq_map (s : Bytes) (p : Pos) :
    ∃ k, scanFrom s p = (List.range (k + 1)).map (token ⟨s, p, none⟩) ∧
      ∀ i ≤ k, (token ⟨s, p, none⟩ i).kind = .endOfInput ↔ i = k := by
  fun_induction scanFrom s p with
  | case1 s p q h =>
    have hnext : next ⟨s, p, none⟩ = (endAt q, ⟨[], q, none⟩) := by simp only [next, h]
    have hlast : token ⟨s, p, none⟩ 0 = endAt q := congrArg Prod.fst hnext
    exact ⟨0, by simp [hlast], fun i hi => by simp [Nat.le_zero.mp hi, hlast, endAt]⟩
  | case2 s p b rest q h lexeme first place hk =>
    obtain ⟨fault, hkind⟩ := Kind.exists_of_isIllegal hk
    have hnext := next_of_skip_cons h
    have hfirst : token ⟨s, p, none⟩ 0 = first := congrArg Prod.fst hnext
    have hlast : token ⟨s, p, none⟩ 1 = endAt place := by
      change (next ⟨s, p, none⟩).2.next.1 = _
      have hfault : lexeme.kind.fault? = some fault := Kind.fault?_eq_some_iff.mpr hkind
      rw [hnext]
      simp only [next, hfault, Option.map_some, lexeme, place]
    refine ⟨1, by simp [List.range_succ, hfirst, hlast], fun i hi => ?_⟩
    rcases Nat.le_one_iff_eq_zero_or_eq_one.mp hi with rfl | rfl
    · simp [hfirst, first, hkind]
    · simp [hlast, endAt]
  | case3 s p b rest q h lexeme first place hk ih =>
    obtain ⟨k, hscan, hend⟩ := ih
    have hnext := next_of_skip_cons h
    have hfirst : token ⟨s, p, none⟩ 0 = first := congrArg Prod.fst hnext
    have hlater (i : Nat) : token ⟨s, p, none⟩ (i + 1) =
        token ⟨(b :: rest).drop lexeme.width, place, none⟩ i := by
      have hfault : lexeme.kind.fault? = none :=
        Kind.fault?_eq_none_iff.mpr (Bool.eq_false_iff.mpr hk)
      change (next ⟨s, p, none⟩).2.token i = _
      rw [hnext]
      simp only [hfault, Option.map_none, lexeme, place]
    refine ⟨k + 1, ?_, fun i hi => ?_⟩
    · rw [List.range_succ_eq_map, List.map_cons, List.map_map, hfirst, hscan]
      exact congrArg _ (List.map_congr_left fun i _ => (hlater i).symm)
    · cases i with
      | zero =>
        rw [hfirst]
        simpa using Lexeme.kind_front_ne_endOfInput b rest
      | succ i =>
        rw [hlater, hend i (Nat.le_of_succ_le_succ hi)]
        exact Nat.succ_inj.symm

structure Ends (source : Bytes) : Prop where
  within : ∃ k ≤ source.length, ((start source).token k).kind = .endOfInput
  frozen : ∀ k m, ((start source).token k).kind = .endOfInput → k ≤ m →
    (start source).token m = (start source).token k
  illegal_unique : ∀ i j, ((start source).token i).kind.isIllegal = true →
    ((start source).token j).kind.isIllegal = true → i = j
  illegal_last : ∀ i, ((start source).token i).kind.isIllegal = true →
    ((start source).token (i + 1)).kind = .endOfInput
  fault_iff : ∀ k e, (after k (start source)).fault = some e ↔
    ∃ i < k, ((start source).token i).kind = .illegal e.1 ∧ ((start source).token i).pos = e.2
  fault_kept : ∀ k m e, (after k (start source)).fault = some e → k ≤ m →
    (after m (start source)).fault = some e
  scan_eq : ∃ k, scan source = (List.range (k + 1)).map (start source).token ∧
    ∀ i ≤ k, ((start source).token i).kind = .endOfInput ↔ i = k

/-- Reading any text ends, and stays ended. -/
theorem reading_ends (source : Bytes) : Ends source where
  within := by
    obtain ⟨k, hk, hend⟩ := exists_endOfInput (start source)
    exact ⟨k, Nat.le_trans hk (unread_start_le source), hend⟩
  frozen _ _ h hm := token_of_endOfInput h hm
  illegal_unique i j hi hj := by
    rcases Nat.le_total i j with hle | hle
    · exact illegal_unique_of_le rfl hi hj hle
    · exact (illegal_unique_of_le rfl hj hi hle).symm
  illegal_last _ h := kind_token_succ_of_illegal rfl h
  fault_iff _ _ := fault_after_iff rfl
  fault_kept _ _ _ h hm := fault_after_of_eq_some h hm
  scan_eq := exists_scanFrom_eq_map _ _

example : (List.range 5).map (fun k => ((start (text "a // b\n@ c")).token k).kind) =
    [.ident, .illegal (.unknownCharacter 0x40), .endOfInput, .endOfInput, .endOfInput] := by cbv

end Reader

end CornScript.Token
