import CornScript.Proofs.Heap.Collection

/-! # Marking in any order

A mark phase is a sequence of calls, each of which marks one item and then, before it is done, what
the item leads to. The calls are nested, so a call can meet an item whose own parts are still to be
looked at by a call around it. What holds at the end of every call is that the items it has entered
itself lead to entered items only. So it matters neither in which order the roots and the parts of
an item are taken, nor how often a root is named.
-/

namespace CornScript.Heap

variable {store : Store} {hs : Handles} {h h' h₁ h₂ h₃ : Heap} {item i j : Item}
  {items items' : List Item}

/-- An order in which to look at what an item leads to. It may be another one each time. -/
structure Tour (store : Store) where
  parts : Heap → Item → List Item
  perm : ∀ h item, (parts h item).Perm (item.successors store)

def Tour.plain (store : Store) : Tour store :=
  ⟨fun _ item => item.successors store, fun _ _ => .refl _⟩

/-- The calls for a list of items, one after the other, lead from one heap to another. The call for
an item that can be entered makes the calls for its parts before it ends. -/
inductive Tour.Runs (tour : Tour store) (hs : Handles) : Heap → List Item → Heap → Prop where
  | done {h : Heap} : Runs tour hs h [] h
  | skip {h h' : Heap} {item : Item} {rest : List Item} : enter? store hs h item = none →
    Runs tour hs h rest h' → Runs tour hs h (item :: rest) h'
  | enter {h h₁ h₂ h₃ : Heap} {item : Item} {rest : List Item} :
    enter? store hs h item = some h₁ → Runs tour hs h₁ (tour.parts h item) h₂ →
    Runs tour hs h₂ rest h₃ → Runs tour hs h (item :: rest) h₃

variable {tour : Tour store}

theorem Reaches.of_samePlaces (hp : SamePlaces h h') (hr : Reaches store hs h' items i) :
    Reaches store hs h items i := by
  induction hr with
  | root hm => exact .root hm
  | step _ ho hij ih => exact .step ih (hp.open_iff.mp ho) hij

theorem Tour.mem_parts (tour : Tour store) : j ∈ tour.parts h item ↔ Edge store item j :=
  (tour.perm h item).mem_iff.trans mem_successors

/-- Calls nest only finitely deep, because each one that is not over at once leaves less to be
reached. -/
theorem Tour.exists_runs (tour : Tour store) (hs : Handles) (h : Heap) (items : List Item) :
    ∃ h', tour.Runs hs h items h' ∧ pending store h' ≤ pending store h := by
  cases items with
  | nil => exact ⟨h, .done, Nat.le_refl _⟩
  | cons item rest =>
    cases he : enter? store hs h item with
    | none =>
      obtain ⟨h', hruns, hle⟩ := tour.exists_runs hs h rest
      exact ⟨h', .skip he hruns, hle⟩
    | some h₁ =>
      have hlt := pending_enter_lt he
      obtain ⟨h₂, hparts, hle₂⟩ := tour.exists_runs hs h₁ (tour.parts h item)
      have hlt₂ : pending store h₂ < pending store h := Nat.lt_of_le_of_lt hle₂ hlt
      obtain ⟨h₃, hrest, hle₃⟩ := tour.exists_runs hs h₂ rest
      exact ⟨h₃, .enter he hparts hrest, hle₃.trans hlt₂.le⟩
termination_by (pending store h, items.length)
decreasing_by
  · exact Prod.Lex.right _ (Nat.lt_succ_self _)
  · exact Prod.Lex.left _ _ hlt
  · exact Prod.Lex.left _ _ hlt₂

theorem mem_visited_enter (he : enter? store hs h item = some h') {n : Nat}
    (hn : h'.visited.mem n = true) : h.visited.mem n = true ∨ n < store.scopes.size := by
  cases item with
  | object r =>
    simp only [enter?] at he
    split at he
    · cases he
      exact .inl hn
    · cases he
  | scope id =>
    simp only [enter?] at he
    split at he
    · rename_i hc
      cases he
      rw [BitSet.mem_insert, Bool.or_eq_true, decide_eq_true_eq] at hn
      rw [Bool.and_eq_true, decide_eq_true_eq] at hc
      refine hn.imp_right fun hn => ?_
      rw [← hn]
      exact hc.1
    · cases he

namespace Tour.Runs

theorem unique (hr : tour.Runs hs h items h₁) (hr' : tour.Runs hs h items h₂) : h₁ = h₂ := by
  induction hr generalizing h₂ with
  | done =>
    cases hr'
    rfl
  | skip he _ ih =>
    cases hr' with
    | skip _ hrest => exact ih hrest
    | enter he' =>
      rw [he] at he'
      cases he'
  | enter he _ _ ihparts ihrest =>
    cases hr' with
    | skip he' =>
      rw [he] at he'
      cases he'
    | enter he' hparts hrest =>
      rw [he] at he'
      cases he'
      cases ihparts hparts
      exact ihrest hrest

theorem samePlaces (hr : tour.Runs hs h items h') : SamePlaces h h' := by
  induction hr with
  | done => rfl
  | skip _ _ ih => exact ih
  | enter he _ _ ihparts ihrest => exact ((enter?_eq_some he).1.trans ihparts).trans ihrest

theorem entered (hr : tour.Runs hs h items h') (hi : Entered store hs h i) :
    Entered store hs h' i := by
  induction hr with
  | done => exact hi
  | skip _ _ ih => exact ih hi
  | enter he _ _ ihparts ihrest =>
    exact ihrest (ihparts (((enter?_eq_some he).2.2 i).mpr (.inl hi)))

theorem entered_of_mem (hr : tour.Runs hs h items h') (hm : item ∈ items)
    (ho : Open store hs h item) : Entered store hs h' item := by
  induction hr with
  | done => cases hm
  | skip he hrest ih =>
    rcases List.mem_cons.mp hm with rfl | hm
    · exact hrest.entered (enter?_eq_none he ho)
    · exact ih hm ho
  | enter he hparts hrest _ ih =>
    obtain ⟨hp, -, hent⟩ := enter?_eq_some he
    rcases List.mem_cons.mp hm with rfl | hm
    · exact hrest.entered (hparts.entered ((hent _).mpr (.inr rfl)))
    · exact ih hm ((hp.trans hparts.samePlaces).open_iff.mpr ho)

theorem reaches_of_entered (hr : tour.Runs hs h items h') (hi : Entered store hs h' i) :
    Entered store hs h i ∨ Reaches store hs h items i := by
  induction hr with
  | done => exact .inl hi
  | skip _ _ ih => exact (ih hi).imp_right (.mono (List.subset_cons_self _ _))
  | @enter h h₁ h₂ h₃ item rest he hparts hrest ihparts ihrest =>
    obtain ⟨hp, -, hent⟩ := enter?_eq_some he
    rcases ihrest hi with hi | hr
    · rcases ihparts hi with hi | hr
      · rcases (hent i).mp hi with hi | rfl
        · exact .inl hi
        · exact .inr (.root List.mem_cons_self)
      · have hsub : tour.parts h item ⊆ item.successors store ++ rest :=
          fun a ha => List.mem_append_left _ ((tour.perm h item).subset ha)
        exact .inr ((hr.mono hsub).enter he)
    · have hr := hr.of_samePlaces (hp.trans hparts.samePlaces)
      exact .inr (hr.mono (List.subset_cons_self _ _))

/-- What a call has entered leads to entered items only, once the call is over. Items that were
entered before may still have parts to be looked at by a call around it. -/
theorem closed (hr : tour.Runs hs h items h') (hi : Entered store hs h' i)
    (hnew : ¬ Entered store hs h i) (hij : Edge store i j) (hj : Open store hs h j) :
    Entered store hs h' j := by
  induction hr with
  | done => exact absurd hi hnew
  | skip _ _ ih => exact ih hi hnew hj
  | @enter h h₁ h₂ h₃ item rest he hparts hrest ihparts ihrest =>
    obtain ⟨hp, -, hent⟩ := enter?_eq_some he
    have hj₁ : Open store hs h₁ j := hp.open_iff.mpr hj
    by_cases hi₂ : Entered store hs h₂ i
    · refine hrest.entered ?_
      by_cases hi₁ : Entered store hs h₁ i
      · -- The item of the call itself: its parts have all been called.
        rcases (hent i).mp hi₁ with hold | rfl
        · exact absurd hold hnew
        · exact hparts.entered_of_mem (tour.mem_parts.mpr hij) hj₁
      · exact ihparts hi₂ hi₁ hj₁
    · exact ihrest hi hi₂ (hparts.samePlaces.open_iff.mpr hj₁)

theorem mem_marks (hr : tour.Runs hs h items h') {n : Nat} (hn : h'.marks.mem n = true) :
    h.marks.mem n = true ∨ ∃ r, h.contains hs r = true ∧ (hs.get r).slot.toNat = n := by
  induction hr with
  | done => exact .inl hn
  | skip _ _ ih => exact ih hn
  | enter he hparts _ ihparts ihrest =>
    have hp := (enter?_eq_some he).1
    rcases ihrest hn with hn | ⟨r, hc, hslot⟩
    · rcases ihparts hn with hn | ⟨r, hc, hslot⟩
      · exact mem_marks_enter he hn
      · exact .inr ⟨r, hp.contains_eq r ▸ hc, hslot⟩
    · exact .inr ⟨r, (hp.trans hparts.samePlaces).contains_eq r ▸ hc, hslot⟩

theorem mem_visited (hr : tour.Runs hs h items h') {n : Nat} (hn : h'.visited.mem n = true) :
    h.visited.mem n = true ∨ n < store.scopes.size := by
  induction hr with
  | done => exact .inl hn
  | skip _ _ ih => exact ih hn
  | enter he _ _ ihparts ihrest =>
    rcases ihrest hn with hn | hn
    · exact (ihparts hn).elim (mem_visited_enter he) .inr
    · exact .inr hn

section Fresh

variable (hm : h.marks = .empty) (hv : h.visited = .empty)

include hm hv

theorem entered_iff (hr : tour.Runs hs h items h') :
    Entered store hs h' i ↔ Open store hs h i ∧ Reaches store hs h items i := by
  have hnew (i : Item) : ¬ Entered store hs h i := by
    cases i with
    | object r => simp [Entered, marked, hm]
    | scope id => simp [Entered, hv]
  constructor
  · intro hi
    exact ⟨hr.samePlaces.open_iff.mp hi.isOpen, (hr.reaches_of_entered hi).resolve_left (hnew i)⟩
  · rintro ⟨ho, hreach⟩
    induction hreach with
    | root hmem => exact hr.entered_of_mem hmem ho
    | step _ hi hij ih => exact hr.closed (ih hi) (hnew _) hij ho

theorem marks_iff (hr : tour.Runs hs h items h') {n : Nat} : h'.marks.mem n = true ↔
    ∃ r, h.contains hs r = true ∧ Reaches store hs h items (.object r) ∧
      (hs.get r).slot.toNat = n := by
  constructor
  · intro hn
    rcases hr.mem_marks hn with hn' | ⟨r, hc, rfl⟩
    · simp [hm] at hn'
    · have hent : Entered store hs h' (.object r) :=
        marked_iff.mpr ⟨hr.samePlaces.contains_eq r ▸ hc, hn⟩
      exact ⟨r, hc, ((entered_iff hm hv hr).mp hent).2, rfl⟩
  · rintro ⟨r, hc, hreach, rfl⟩
    have hent : Entered store hs h' (.object r) := (entered_iff hm hv hr).mpr ⟨hc, hreach⟩
    exact (marked_iff.mp hent).2

theorem visited_iff (hr : tour.Runs hs h items h') {n : Nat} : h'.visited.mem n = true ↔
    n < store.scopes.size ∧ Reaches store hs h items (.scope ⟨n⟩) := by
  have hent : Entered store hs h' (.scope ⟨n⟩) ↔ _ := entered_iff hm hv hr
  constructor
  · intro hn
    rcases hr.mem_visited hn with hn' | hlt
    · simp [hv] at hn'
    · exact hent.mp ⟨hlt, hn⟩
  · exact fun h => (hent.mpr h).2

/-- Neither the order nor the number of the roots matters, nor the order in which parts are
taken. -/
theorem eq_of_mem_iff {tour' : Tour store} (hr : tour.Runs hs h items h₁)
    (hr' : tour'.Runs hs h items' h₂) (hsame : ∀ item, item ∈ items ↔ item ∈ items') :
    h₁ = h₂ := by
  have hreach (i : Item) : Reaches store hs h items i ↔ Reaches store hs h items' i :=
    ⟨.mono fun item => (hsame item).mp, .mono fun item => (hsame item).mpr⟩
  have hmarks : h₁.marks = h₂.marks := BitSet.ext_mem fun n => by
    rw [Bool.eq_iff_iff, marks_iff hm hv hr, marks_iff hm hv hr']
    simp only [hreach]
  have hvisited : h₁.visited = h₂.visited := BitSet.ext_mem fun n => by
    rw [Bool.eq_iff_iff, visited_iff hm hv hr, visited_iff hm hv hr', hreach]
  rw [hr.samePlaces, hr'.samePlaces, hmarks, hvisited]

end Fresh

end Tour.Runs

inductive Call where
  | mark (r : Ref)
  | markScope (id : Option ScopeId)
  deriving DecidableEq, Repr

namespace Call

def run (store : Store) (hs : Handles) (h : Heap) : Call → Heap
  | mark r => h.mark store hs r
  | markScope (some id) => h.markScope store hs id
  | markScope none => h

def roots : Call → List Item
  | mark r => [.object r]
  | markScope id => id.toList.map .scope

end Call

def markAll (store : Store) (hs : Handles) (h : Heap) (calls : List Call) : Heap :=
  calls.foldl (Call.run store hs) h

theorem trace_of_enter {rest : List Item} (he : enter? store hs h item = some h₁) :
    h.trace store hs (item :: rest) = h₁.trace store hs (item.successors store ++ rest) := by
  rw [trace]
  split
  · next he' =>
    rw [he] at he'
    cases he'
    rfl
  · next he' =>
    rw [he] at he'
    cases he'

theorem trace_of_skip {rest : List Item} (he : enter? store hs h item = none) :
    h.trace store hs (item :: rest) = h.trace store hs rest := by
  rw [trace]
  split
  · next he' =>
    rw [he] at he'
    cases he'
  · rfl

theorem trace_append (h : Heap) (items items' : List Item) :
    h.trace store hs (items ++ items') = (h.trace store hs items).trace store hs items' := by
  fun_induction trace store hs h items with
  | case1 h => rfl
  | case2 h item rest h' he ih =>
    rw [List.cons_append, trace_of_enter he, ← List.append_assoc]
    exact ih
  | case3 h item rest he ih =>
    rw [List.cons_append, trace_of_skip he]
    exact ih

theorem Tour.Runs.trace_eq (hr : (Tour.plain store).Runs hs h items h') :
    h.trace store hs items = h' := by
  induction hr with
  | done => rw [trace]
  | skip he _ ih => rw [trace_of_skip he, ih]
  | enter he _ _ ihparts ihrest =>
    rw [trace_of_enter he, trace_append]
    exact (congrArg (trace store hs · _) ihparts).trans ihrest

theorem markAll_eq_trace (h : Heap) (calls : List Call) :
    h.markAll store hs calls = h.trace store hs (calls.flatMap Call.roots) := by
  induction calls generalizing h with
  | nil => rw [markAll, List.foldl_nil, List.flatMap_nil, trace]
  | cons call calls ih =>
    rw [List.flatMap_cons, trace_append, ← ih]
    cases call with
    | mark r => rfl
    | markScope id =>
      cases id with
      | none =>
        change _ = (h.trace store hs []).markAll store hs calls
        rw [trace]
        rfl
      | some id => rfl

theorem runs_markAll (h : Heap) (calls : List Call) :
    (Tour.plain store).Runs hs h (calls.flatMap Call.roots) (h.markAll store hs calls) := by
  obtain ⟨h', hr, -⟩ := (Tour.plain store).exists_runs hs h (calls.flatMap Call.roots)
  rwa [markAll_eq_trace, hr.trace_eq]

structure Explores (store : Store) (hs : Handles) (h : Heap) (calls : List Call) (h' : Heap) :
    Prop where
  places : SamePlaces h h'
  marked_iff : ∀ r, h'.marked hs r = true ↔
    h.contains hs r = true ∧ Reaches store hs h (calls.flatMap Call.roots) (.object r)
  marks_iff : ∀ n, h'.marks.mem n = true ↔ ∃ r, h.contains hs r = true ∧
    Reaches store hs h (calls.flatMap Call.roots) (.object r) ∧ (hs.get r).slot.toNat = n
  visited_iff : ∀ n, h'.visited.mem n = true ↔ n < store.scopes.size ∧
    Reaches store hs h (calls.flatMap Call.roots) (.scope ⟨n⟩)
  /-- A call ends, in whatever state the mark phase is and in whatever order parts are taken. -/
  ends : ∀ (tour : Tour store) (g : Heap) (call : Call), ∃! g', tour.Runs hs g call.roots g'
  order : ∀ (calls' : List Call), (∀ call, call ∈ calls' ↔ call ∈ calls) →
    h.markAll store hs calls' = h' ∧
      ∀ tour : Tour store, tour.Runs hs h (calls'.flatMap Call.roots) h'

/-- A mark phase that starts afresh comes to an end, and to the same one for the same roots. -/
theorem explores_markAll (hm : h.marks = .empty) (hv : h.visited = .empty) (store : Store)
    (hs : Handles) (calls : List Call) :
    Explores store hs h calls (h.markAll store hs calls) := by
  have hruns : (Tour.plain store).Runs hs h _ (h.markAll store hs calls) := runs_markAll h calls
  refine ⟨hruns.samePlaces, fun r => ?_, fun n => hruns.marks_iff hm hv,
    fun n => hruns.visited_iff hm hv, fun tour g call => ?_, fun calls' hsame => ?_⟩
  · have hent : Entered store hs (h.markAll store hs calls) (.object r) ↔ _ :=
      hruns.entered_iff hm hv
    exact hent
  · obtain ⟨g', hr, -⟩ := tour.exists_runs hs g call.roots
    exact ⟨g', hr, fun g'' hr' => hr'.unique hr⟩
  · have hroots (item : Item) :
        item ∈ calls'.flatMap Call.roots ↔ item ∈ calls.flatMap Call.roots := by
      simp only [List.mem_flatMap, hsame]
    refine ⟨(runs_markAll h calls').eq_of_mem_iff hm hv hruns hroots, fun tour => ?_⟩
    obtain ⟨h'', hr, -⟩ := tour.exists_runs hs h (calls'.flatMap Call.roots)
    exact hr.eq_of_mem_iff hm hv hruns hroots ▸ hr

def enclosed : Store :=
  let token : Token := ⟨.leftBrace, text "\x7b", Pos.start⟩
  let objects : Store := ⟨#[.function [] (.mk token []) (some ⟨1⟩), .string [], .string []], #[]⟩
  let scopes := ((objects.newScope none).2.newScope (some ⟨0⟩)).2
  (scopes.bind ⟨0⟩ (text "s") ⟨1⟩).bind ⟨1⟩ (text "f") ⟨0⟩

def threeOwned : Heap × Handles :=
  twoOwned.1.register twoOwned.2 ⟨2⟩

/-- Marking the function looks at its scope, which leads back to it before the outer scope has been
looked at. -/
theorem explores_markAll_enclosed :
    let calls : List Call := [.mark ⟨0⟩, .markScope (some ⟨1⟩), .markScope none, .mark ⟨0⟩]
    let h' := threeOwned.1.markAll enclosed threeOwned.2 calls
    threeOwned.1.marks = .empty ∧ threeOwned.1.visited = .empty ∧
      h'.marks = ⟨3⟩ ∧ h'.visited = ⟨3⟩ ∧
      Explores enclosed threeOwned.2 threeOwned.1 calls h' :=
  ⟨by cbv, by cbv, by cbv, by cbv, explores_markAll (by cbv) (by cbv) _ _ _⟩

end CornScript.Heap
