import CornScript.Proofs.Heap.Slots
import Mathlib.Logic.Relation

/-! # Reachability

Objects lead to their elements, values and closures, and scopes lead to what they bind and to the
scope around them. The mark phase enters what its roots reach along paths on which every object
is owned: a worklist is finished when everything that an entered item leads to has been entered or
cannot be, and nothing else is ever entered.
-/

namespace CornScript.Heap

inductive Part : Object → Item → Prop where
  | element {elements : List Ref} {e : Ref} : e ∈ elements → Part (.array elements) (.object e)
  | value {pairs : Dict Ref} {k : Bytes} {v : Ref} :
    pairs.get? k = some v → Part (.hash pairs) (.object v)
  | closure {params : List Bytes} {body : Block} {id : ScopeId} :
    Part (.function params body (some id)) (.scope id)

inductive Edge (store : Store) : Item → Item → Prop where
  | part {r : Ref} {j : Item} : Part (store.get r) j → Edge store (.object r) j
  | binding {id : ScopeId} {sc : Scope} {name : Bytes} {r : Ref} :
    store.scope? id = some sc → sc.bindings.get? name = some r → Edge store (.scope id) (.object r)
  | outer {id o : ScopeId} {sc : Scope} :
    store.scope? id = some sc → sc.outer = some o → Edge store (.scope id) (.scope o)

variable {store : Store} {hs : Handles} {h h' : Heap} {item : Item} {roots items : List Item}

theorem mem_successors_object {r : Ref} {j : Item} :
    j ∈ (Item.object r).successors store ↔ Part (store.get r) j := by
  simp only [Item.successors]
  constructor
  · intro hj
    split at hj
    · rename_i elements he
      obtain ⟨e, hm, rfl⟩ := List.mem_map.mp hj
      exact he ▸ .element hm
    · rename_i pairs he
      obtain ⟨v, hm, rfl⟩ := List.mem_map.mp hj
      obtain ⟨k, hk⟩ := (Dict.mem_values_iff pairs v).mp hm
      exact he ▸ .value hk
    · rename_i params body id he
      rw [List.mem_singleton] at hj
      exact he ▸ hj ▸ .closure
    · cases hj
  · intro hj
    generalize store.get r = o at hj
    cases hj with
    | element hm => exact List.mem_map_of_mem hm
    | value hk => exact List.mem_map_of_mem ((Dict.mem_values_iff _ _).mpr ⟨_, hk⟩)
    | closure => exact List.mem_singleton_self _

theorem mem_successors {j : Item} : j ∈ item.successors store ↔ Edge store item j := by
  cases item with
  | object r =>
    rw [mem_successors_object]
    exact ⟨.part, fun he => by cases he; assumption⟩
  | scope id =>
    simp only [Item.successors]
    constructor
    · intro hj
      split at hj
      · rename_i sc hsc
        rcases List.mem_append.mp hj with hj | hj
        · obtain ⟨r, hm, rfl⟩ := List.mem_map.mp hj
          obtain ⟨k, hk⟩ := (Dict.mem_values_iff sc.bindings r).mp hm
          exact .binding hsc hk
        · obtain ⟨o, hm, rfl⟩ := List.mem_map.mp hj
          exact .outer hsc (Option.mem_toList.mp hm)
      · cases hj
    · intro hj
      cases hj with
      | binding hsc hk =>
        simp only [hsc, List.mem_append, List.mem_map]
        exact .inl ⟨_, (Dict.mem_values_iff _ _).mpr ⟨_, hk⟩, rfl⟩
      | outer hsc ho => simp [hsc, ho]

/-- The mark phase can go through an item: the heap owns the object, or the scope exists. -/
def Open (store : Store) (hs : Handles) (h : Heap) : Item → Prop
  | .object r => h.contains hs r = true
  | .scope id => id.index < store.scopes.size

inductive Reaches (store : Store) (hs : Handles) (h : Heap) (roots : List Item) : Item → Prop where
  | root {item : Item} : item ∈ roots → Reaches store hs h roots item
  | step {i j : Item} :
    Reaches store hs h roots i → Open store hs h i → Edge store i j → Reaches store hs h roots j

def Entered (store : Store) (hs : Handles) (h : Heap) : Item → Prop
  | .object r => h.marked hs r = true
  | .scope id => id.index < store.scopes.size ∧ h.visited.mem id.index = true

theorem marked_iff {r : Ref} : h.marked hs r = true ↔
    h.contains hs r = true ∧ h.marks.mem (hs.get r).slot.toNat = true := by
  rw [marked, Bool.and_eq_true]

theorem Entered.isOpen (he : Entered store hs h item) : Open store hs h item := by
  cases item with
  | object r => exact (marked_iff.mp he).1
  | scope id => exact he.1

def SamePlaces (h h' : Heap) : Prop :=
  h' = { h with marks := h'.marks, visited := h'.visited }

theorem SamePlaces.contains_eq (hp : SamePlaces h h') (r : Ref) :
    h'.contains hs r = h.contains hs r := by
  rw [hp]
  rfl

theorem SamePlaces.open_iff (hp : SamePlaces h h') :
    Open store hs h' item ↔ Open store hs h item := by
  cases item with
  | object r => rw [Open, Open, hp.contains_eq]
  | scope id => rfl

theorem SamePlaces.trans {h'' : Heap} (hp : SamePlaces h h') (hp' : SamePlaces h' h'') :
    SamePlaces h h'' := by
  unfold SamePlaces at *
  rw [hp', hp]

theorem entered_mark_iff {j : Item} (hc : h.contains hs r = true) :
    Entered store hs { h with marks := h.marks.insert (hs.get r).slot.toNat } j ↔
      Entered store hs h j ∨ j = .object r := by
  cases j with
  | scope id => simp [Entered]
  | object r' =>
    have hcont : ∀ m, contains { h with marks := m } hs r' = h.contains hs r' := fun _ => rfl
    simp only [Entered, marked_iff, BitSet.mem_insert, Bool.or_eq_true, decide_eq_true_eq,
      Item.object.injEq, hcont]
    constructor
    · rintro ⟨hr', hm | hm⟩
      · exact .inl ⟨hr', hm⟩
      · exact .inr (eq_of_slot_eq hr' hc hm.symm)
    · rintro (⟨hr', hm⟩ | rfl)
      · exact ⟨hr', .inl hm⟩
      · exact ⟨hc, .inr rfl⟩

theorem entered_visit_iff {j : Item} {id : ScopeId} (hid : id.index < store.scopes.size) :
    Entered store hs { h with visited := h.visited.insert id.index } j ↔
      Entered store hs h j ∨ j = .scope id := by
  cases j with
  | object r => simp [Entered, marked, contains, resolve]
  | scope id' =>
    obtain ⟨i⟩ := id
    obtain ⟨i'⟩ := id'
    simp only [Entered, BitSet.mem_insert, Bool.or_eq_true, decide_eq_true_eq, Item.scope.injEq,
      ScopeId.mk.injEq]
    constructor
    · rintro ⟨hi', hm | hm⟩
      · exact .inl ⟨hi', hm⟩
      · exact .inr hm.symm
    · rintro (⟨hi', hm⟩ | rfl)
      · exact ⟨hi', .inl hm⟩
      · exact ⟨hid, .inr rfl⟩

theorem enter?_eq_some (he : enter? store hs h item = some h') :
    SamePlaces h h' ∧ Open store hs h item ∧
      ∀ j, Entered store hs h' j ↔ Entered store hs h j ∨ j = item := by
  cases item with
  | object r =>
    simp only [enter?] at he
    split at he
    · rename_i hc
      rw [Bool.and_eq_true] at hc
      cases he
      exact ⟨rfl, hc.1, fun j => entered_mark_iff hc.1⟩
    · cases he
  | scope id =>
    simp only [enter?] at he
    split at he
    · rename_i hc
      rw [Bool.and_eq_true, decide_eq_true_eq] at hc
      cases he
      exact ⟨rfl, hc.1, fun j => entered_visit_iff hc.1⟩
    · cases he

theorem enter?_eq_none (he : enter? store hs h item = none) (ho : Open store hs h item) :
    Entered store hs h item := by
  cases item with
  | object r =>
    have hc : h.contains hs r = true := ho
    simpa [enter?, Entered, marked, hc] using he
  | scope id =>
    have hc : id.index < store.scopes.size := ho
    simpa [enter?, Entered, hc] using he

/-- Everything that an entered item leads to has been entered, cannot be, or is still to be
looked at. -/
def Closed (store : Store) (hs : Handles) (h : Heap) (items : List Item) : Prop :=
  ∀ i j, Entered store hs h i → Edge store i j → Open store hs h j →
    Entered store hs h j ∨ j ∈ items

theorem closed_of_unmarked (hm : h.marks = .empty) (hv : h.visited = .empty) :
    Closed store hs h items := by
  intro i j he
  cases i with
  | object r => simp [Entered, marked, hm] at he
  | scope id => simp [Entered, hv] at he

theorem Closed.enter (hc : Closed store hs h (item :: items))
    (he : enter? store hs h item = some h') :
    Closed store hs h' (item.successors store ++ items) := by
  obtain ⟨hp, -, hent⟩ := enter?_eq_some he
  intro i j hi hij hj
  rcases (hent i).mp hi with hi | rfl
  · rcases hc i j hi hij (hp.open_iff.mp hj) with hj' | hj'
    · exact .inl ((hent j).mpr (.inl hj'))
    · rcases List.mem_cons.mp hj' with rfl | hj'
      · exact .inl ((hent j).mpr (.inr rfl))
      · exact .inr (List.mem_append_right _ hj')
  · exact .inr (List.mem_append_left _ (mem_successors.mpr hij))

theorem Closed.skip (hc : Closed store hs h (item :: items))
    (he : enter? store hs h item = none) : Closed store hs h items := by
  intro i j hi hij hj
  rcases hc i j hi hij hj with hj' | hj'
  · exact .inl hj'
  · rcases List.mem_cons.mp hj' with rfl | hj'
    · exact .inl (enter?_eq_none he hj)
    · exact .inr hj'

theorem Reaches.enter {i : Item} (he : enter? store hs h item = some h')
    (hr : Reaches store hs h' (item.successors store ++ items) i) :
    Reaches store hs h (item :: items) i := by
  obtain ⟨hp, ho, -⟩ := enter?_eq_some he
  induction hr with
  | root hm =>
    rcases List.mem_append.mp hm with hm | hm
    · exact .step (.root List.mem_cons_self) ho (mem_successors.mp hm)
    · exact .root (List.mem_cons_of_mem _ hm)
  | step _ hi hij ih => exact .step ih (hp.open_iff.mp hi) hij

theorem Reaches.mono {roots' : List Item} (hsub : roots ⊆ roots')
    (hr : Reaches store hs h roots item) : Reaches store hs h roots' item := by
  induction hr with
  | root hm => exact .root (hsub hm)
  | step _ hi hij ih => exact .step ih hi hij

theorem samePlaces_trace (store : Store) (hs : Handles) (h : Heap) (items : List Item) :
    SamePlaces h (h.trace store hs items) := by
  fun_induction trace store hs h items with
  | case1 h => rfl
  | case2 h item rest h' he ih => exact (enter?_eq_some he).1.trans ih
  | case3 h item rest he ih => exact ih

theorem Entered.trace (hi : Entered store hs h item) :
    Entered store hs (h.trace store hs items) item := by
  fun_induction Heap.trace store hs h items with
  | case1 h => exact hi
  | case2 h next rest h' he ih => exact ih (((enter?_eq_some he).2.2 item).mpr (.inl hi))
  | case3 h next rest he ih => exact ih hi

theorem entered_trace_of_mem (hm : item ∈ items) (ho : Open store hs h item) :
    Entered store hs (h.trace store hs items) item := by
  fun_induction Heap.trace store hs h items with
  | case1 h => cases hm
  | case2 h next rest h' he ih =>
    obtain ⟨hp, -, hent⟩ := enter?_eq_some he
    rcases List.mem_cons.mp hm with rfl | hm
    · exact Entered.trace ((hent _).mpr (.inr rfl))
    · exact ih (List.mem_append_right _ hm) (hp.open_iff.mpr ho)
  | case3 h next rest he ih =>
    rcases List.mem_cons.mp hm with rfl | hm
    · exact Entered.trace (enter?_eq_none he ho)
    · exact ih hm ho

theorem closed_trace (hc : Closed store hs h items) :
    Closed store hs (h.trace store hs items) [] := by
  fun_induction Heap.trace store hs h items with
  | case1 h => exact hc
  | case2 h item rest h' he ih => exact ih (hc.enter he)
  | case3 h item rest he ih => exact ih (hc.skip he)

theorem reaches_of_entered_trace (hi : Entered store hs (h.trace store hs items) item) :
    Entered store hs h item ∨ Reaches store hs h items item := by
  fun_induction Heap.trace store hs h items with
  | case1 h => exact .inl hi
  | case2 h next rest h' he ih =>
    obtain ⟨-, -, hent⟩ := enter?_eq_some he
    rcases ih hi with hi | hr
    · rcases (hent item).mp hi with hi | rfl
      · exact .inl hi
      · exact .inr (.root List.mem_cons_self)
    · exact .inr (hr.enter he)
  | case3 h next rest he ih => exact (ih hi).imp_right (.mono (List.subset_cons_self _ _))

/-- A mark phase that starts afresh enters exactly the open items that its roots reach. -/
theorem entered_trace_iff (hm : h.marks = .empty) (hv : h.visited = .empty) :
    Entered store hs (h.trace store hs roots) item ↔
      Reaches store hs h roots item ∧ Open store hs h item := by
  have hp := samePlaces_trace store hs h roots
  constructor
  · intro hi
    refine ⟨?_, hp.open_iff.mp hi.isOpen⟩
    rcases reaches_of_entered_trace hi with hi | hr
    · cases item with
      | object r => simp [Entered, marked, hm] at hi
      | scope id => simp [Entered, hv] at hi
    · exact hr
  · rintro ⟨hr, ho⟩
    have hc : Closed store hs (h.trace store hs roots) [] :=
      closed_trace (closed_of_unmarked hm hv)
    induction hr with
    | root hmem => exact entered_trace_of_mem hmem ho
    | step _ hi hij ih =>
      rcases hc _ _ (ih hi) hij (hp.open_iff.mpr ho) with hj | hj
      · exact hj
      · cases hj

end CornScript.Heap
