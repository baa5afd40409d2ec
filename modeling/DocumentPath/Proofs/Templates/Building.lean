import Mathlib.Data.List.Forall2
import DocumentPath.Template
import DocumentPath.Proofs.Outcomes
import DocumentPath.Proofs.Positions.Rearranging

namespace DocumentPath

namespace Template

open Position (at?)

variable {engine : Engine} {data context : Value}

section Rows

variable {α β : Type} {R : α → β → Prop}

theorem rel_getElem? {as : List α} {bs : List β} (h : List.Forall₂ R as bs) (i : Nat) :
    Option.Rel R as[i]? bs[i]? := by
  induction h generalizing i with
  | nil => exact .none
  | cons first _ ih =>
    cases i with
    | zero => exact .some first
    | succ i => exact ih i

theorem rel_lookup {as : List (String × α)} {bs : List (String × β)}
    (h : List.Forall₂ (fun a b => a.1 = b.1 ∧ R a.2 b.2) as bs) (key : String) :
    Option.Rel R (as.lookup key) (bs.lookup key) := by
  induction h with
  | nil => exact .none
  | @cons a b as bs first _ ih =>
    rw [Members.lookup_cons, Members.lookup_cons, ← first.1]
    by_cases same : key = a.1
    · rw [if_pos same, if_pos same]
      exact .some first.2
    · rwa [if_neg same, if_neg same]

end Rows

theorem compileItems_eq_ok_iff {vs : List Value} {ts : List Template} :
    compileItems engine vs = .ok ts ↔
      List.Forall₂ (fun v t => compile engine v = .ok t) vs ts := by
  induction vs generalizing ts with
  | nil => cases ts <;> simp [compileItems]
  | cons v vs ih =>
    rw [compileItems, List.forall₂_cons_left_iff]
    cases first : compile engine v with
    | error fault => simp [bind, Except.bind]
    | ok t =>
      simp only [← ih]
      cases rest : compileItems engine vs with
      | error fault => simp [bind, Except.bind]
      | ok ts => simp [bind, Except.bind, eq_comm]

theorem compileMembers_eq_ok_iff {ms : List (String × Value)} {ts : List (String × Template)} :
    compileMembers engine ms = .ok ts ↔
      List.Forall₂ (fun m t => m.1 = t.1 ∧ compile engine m.2 = .ok t.2) ms ts := by
  induction ms generalizing ts with
  | nil => cases ts <;> simp [compileMembers]
  | cons m ms ih =>
    rw [compileMembers, List.forall₂_cons_left_iff]
    cases first : compile engine m.2 with
    | error fault => simp [bind, Except.bind]
    | ok t =>
      simp only [← ih]
      cases rest : compileMembers engine ms with
      | error fault => simp [bind, Except.bind]
      | ok ts => simp [bind, Except.bind, eq_comm]

theorem buildItems_eq_map (ts : List Template) :
    buildItems data context ts = ts.map (build data context) := by
  induction ts with
  | nil => rfl
  | cons t ts ih => rw [buildItems, ih, List.map_cons]

theorem buildMembers_eq_map (ts : List (String × Template)) :
    buildMembers data context ts = ts.map fun t => (t.1, build data context t.2) := by
  induction ts with
  | nil => rfl
  | cons t ts ih => rw [buildMembers, ih, List.map_cons]

/-- One level of a compiled template: a leaf has the plan of its path, a container a template for each
of its parts. -/
inductive Compiled (engine : Engine) : Value → Template → Prop
  | leaf {path : String} {plan : Plan} :
    Plan.compile engine path = .ok plan → Compiled engine (.string path) (.leaf plan)
  | array {vs : List Value} {ts : List Template} :
    List.Forall₂ (fun v t => compile engine v = .ok t) vs ts → Compiled engine (.array vs) (.array ts)
  | object {ms : List (String × Value)} {ts : List (String × Template)} :
    List.Forall₂ (fun m t => m.1 = t.1 ∧ compile engine m.2 = .ok t.2) ms ts →
    Compiled engine (.object ms) (.object ts)

theorem compiled_of_compile {v : Value} {t : Template} (h : compile engine v = .ok t) :
    Compiled engine v t := by
  cases v with
  | string path =>
    obtain ⟨plan, read, h⟩ := exists_of_bind_ok h
    cases h
    exact .leaf read
  | array items =>
    obtain ⟨ts, read, h⟩ := exists_of_bind_ok h
    cases h
    exact .array (compileItems_eq_ok_iff.mp read)
  | object members =>
    obtain ⟨ts, read, h⟩ := exists_of_bind_ok h
    cases h
    exact .object (compileMembers_eq_ok_iff.mp read)
  | _ => cases h

/-- The parts of what is built from a template are built from the parts of the template. -/
theorem child?_build (data context : Value) {v : Value} {t : Template}
    (h : compile engine v = .ok t) (container : v.isContainer = true) (b : Branch) :
    Option.Rel (fun w x => ∃ s, compile engine w = .ok s ∧ x = build data context s) (v.child? b)
      ((build data context t).child? b) := by
  cases compiled_of_compile h with
  | leaf _ => cases container
  | @array vs ts items =>
    rw [build, buildItems_eq_map]
    cases b with
    | member key => exact .none
    | item i =>
      refine rel_getElem? (List.forall₂_map_right_iff.mpr (items.imp ?_)) i
      intro w s compiled
      exact ⟨s, compiled, rfl⟩
  | @object ms ts members =>
    rw [build, buildMembers_eq_map]
    cases b with
    | item i => exact .none
    | member key =>
      refine rel_lookup (List.forall₂_map_right_iff.mpr (members.imp ?_)) key
      intro m s compiled
      exact ⟨compiled.1, s.2, compiled.2, rfl⟩

/-- Wherever something stands in a template, what is built from it stands in the built value. -/
theorem at?_build (data context : Value) {p : Position} {v u : Value} {t : Template}
    (h : compile engine v = .ok t) (here : at? p v = some u) :
    ∃ s, compile engine u = .ok s ∧ at? p (build data context t) = some (build data context s) := by
  induction p generalizing v t with
  | nil =>
    cases here
    exact ⟨t, h, rfl⟩
  | cons b p ih =>
    obtain ⟨w, hw, here⟩ := Option.bind_eq_some_iff.mp here
    have container : v.isContainer = true := Value.isContainer_of_child? hw
    have part := child?_build data context h container b
    rw [hw] at part
    obtain ⟨x, hx, s, compiled, rfl⟩ := Value.exists_of_rel part
    obtain ⟨s, compiled, built⟩ := ih compiled here
    exact ⟨s, compiled, by rw [at?, hx]; exact built⟩

/-- Every leaf of a template is a path that can be read. -/
def Readable (engine : Engine) (v : Value) : Prop :=
  ∀ p leaf, at? p v = some leaf → leaf.isContainer = false →
    ∃ path plan, leaf = .string path ∧ Plan.compile engine path = .ok plan

theorem Readable.child? {v w : Value} {b : Branch} (h : Readable engine v)
    (here : v.child? b = some w) : Readable engine w := by
  intro p leaf found
  apply h (b :: p)
  rw [at?, here]
  exact found

theorem readable_of_compile {v : Value} {t : Template} (h : compile engine v = .ok t) :
    Readable engine v := by
  intro p leaf here scalar
  obtain ⟨s, compiled, -⟩ := at?_build .null .null h here
  cases compiled_of_compile compiled with
  | leaf read => exact ⟨_, _, rfl, read⟩
  | array _ => cases scalar
  | object _ => cases scalar

theorem Readable.rearranged {v w : Value} (h : Readable engine v) (order : v.Rearranged w) :
    Readable engine w := by
  intro p leaf here scalar
  obtain ⟨u, found, same⟩ := order.symm.at? here
  cases same.top.2 scalar
  exact h p leaf found scalar

mutual

theorem exists_compile (v : Value) (once : v.KeysOnce) (h : Readable engine v) :
    ∃ t, compile engine v = .ok t := by
  cases v with
  | array items =>
    have parts : ∀ w ∈ items, w.KeysOnce ∧ Readable engine w := by
      intro w hw
      obtain ⟨i, hi⟩ := List.getElem?_of_mem hw
      have here : (Value.array items).child? (.item i) = some w := hi
      exact ⟨once.child? here, h.child? here⟩
    obtain ⟨ts, read⟩ := exists_compileItems items parts
    exact ⟨.array ts, by rw [compile, read]; rfl⟩
  | object members =>
    have parts : ∀ m ∈ members, m.2.KeysOnce ∧ Readable engine m.2 := by
      intro m hm
      have here : (Value.object members).child? (.member m.1) = some m.2 :=
        Value.lookup_of_mem (once [] members rfl) hm
      exact ⟨once.child? here, h.child? here⟩
    obtain ⟨ts, read⟩ := exists_compileMembers members parts
    exact ⟨.object ts, by rw [compile, read]; rfl⟩
  | string path =>
    obtain ⟨_, plan, same, read⟩ := h [] _ rfl rfl
    cases same
    exact ⟨.leaf plan, by rw [compile, read]; rfl⟩
  | _ =>
    obtain ⟨_, _, same, _⟩ := h [] _ rfl rfl
    cases same

theorem exists_compileItems (vs : List Value) (h : ∀ w ∈ vs, w.KeysOnce ∧ Readable engine w) :
    ∃ ts, compileItems engine vs = .ok ts := by
  cases vs with
  | nil => exact ⟨[], by rw [compileItems]⟩
  | cons v vs =>
    obtain ⟨first, others⟩ := List.forall_mem_cons.mp h
    obtain ⟨t, read⟩ := exists_compile v first.1 first.2
    obtain ⟨ts, rest⟩ := exists_compileItems vs others
    exact ⟨t :: ts, by rw [compileItems, read, rest]; rfl⟩

theorem exists_compileMembers (ms : List (String × Value))
    (h : ∀ m ∈ ms, m.2.KeysOnce ∧ Readable engine m.2) :
    ∃ ts, compileMembers engine ms = .ok ts := by
  cases ms with
  | nil => exact ⟨[], by rw [compileMembers]⟩
  | cons m ms =>
    obtain ⟨first, others⟩ := List.forall_mem_cons.mp h
    obtain ⟨t, read⟩ := exists_compile m.2 first.1 first.2
    obtain ⟨ts, rest⟩ := exists_compileMembers ms others
    exact ⟨(m.1, t) :: ts, by rw [compileMembers, read, rest]; rfl⟩

end

theorem kind_build (data context : Value) {v : Value} {t : Template}
    (h : compile engine v = .ok t) (container : v.isContainer = true) :
    (build data context t).kind = v.kind := by
  cases compiled_of_compile h with
  | leaf _ => cases container
  | array _ => rfl
  | object _ => rfl

theorem matches_build {v w : Value} {s t : Template} (same : v.Matches w)
    (hv : compile engine v = .ok s) (hw : compile engine w = .ok t) :
    (build data context s).Matches (build data context t) := by
  cases container : v.isContainer with
  | false =>
    cases same.2 container
    cases hv.symm.trans hw
    exact Value.Matches.refl _
  | true =>
    have kind := kind_build data context hv container
    have kind' := kind_build data context hw (same.isContainer_eq.symm.trans container)
    refine ⟨by rw [kind, kind', same.1], fun scalar => ?_⟩
    rw [Value.isContainer, kind, ← Value.isContainer, container] at scalar
    cases scalar

/-- From templates that differ in the order of members, values are built that do so as well. -/
theorem rearranged_build {v w : Value} {s t : Template} (order : v.Rearranged w)
    (hv : compile engine v = .ok s) (hw : compile engine w = .ok t) :
    (build data context s).Rearranged (build data context t) := by
  intro p
  induction p generalizing v w s t with
  | nil => exact .some (matches_build order.top hv hw)
  | cons b p ih =>
    cases container : v.isContainer with
    | false =>
      -- a leaf has one plan, and what it finds has every position below
      cases order.top.2 container
      cases hv.symm.trans hw
      exact Value.Rearranged.refl _ (b :: p)
    | true =>
      have parts := child?_build data context hv container b
      have parts' := child?_build data context hw
        (order.top.isContainer_eq.symm.trans container) b
      have below := order.child? b
      rw [at?, at?]
      cases hc : v.child? b with
      | none =>
        rw [hc] at parts below
        rw [Value.eq_none_of_rel below] at parts'
        rw [Value.eq_none_of_rel parts, Value.eq_none_of_rel parts']
        exact .none
      | some u =>
        rw [hc] at parts below
        obtain ⟨u', hu', order'⟩ := Value.exists_of_rel below
        rw [hu'] at parts'
        obtain ⟨x, hx, s', read, rfl⟩ := Value.exists_of_rel parts
        obtain ⟨x', hx', t', read', rfl⟩ := Value.exists_of_rel parts'
        rw [hx, hx']
        exact ih order' read read'

/-- A template is read just when all its leaves are paths that are read, and in what is built from it
every path has given way to what it leads to while arrays keep their lengths and objects their keys. The
order of the members plays no part in any of this. -/
theorem compile_build_shape (engine : Engine) {v w : Value} (once : v.KeysOnce) (once' : w.KeysOnce)
    (order : v.Rearranged w) :
    ((∃ t, compile engine w = .ok t) ↔
      ∀ p leaf, at? p v = some leaf → leaf.isContainer = false →
        ∃ path plan, leaf = .string path ∧ Plan.compile engine path = .ok plan) ∧
    ∀ t, compile engine w = .ok t → ∀ data context,
      (∀ p path, at? p v = some (.string path) →
        ∃ plan, Plan.compile engine path = .ok plan ∧
          at? p (build data context t) = some (plan.run data context)) ∧
      (∀ p items, at? p v = some (.array items) →
        ∃ items', at? p (build data context t) = some (.array items') ∧
          items'.length = items.length) ∧
      (∀ p members, at? p v = some (.object members) →
        ∃ members', at? p (build data context t) = some (.object members') ∧
          (members'.map Prod.fst).Perm (members.map Prod.fst)) ∧
      ∃ s, compile engine v = .ok s ∧
        (build data context s).Rearranged (build data context t) := by
  have same : Readable engine v ↔ Readable engine w :=
    ⟨fun h => h.rearranged order, fun h => h.rearranged order.symm⟩
  have reads : (∃ t, compile engine w = .ok t) ↔ Readable engine v := by
    rw [same]
    constructor
    · intro compiles
      obtain ⟨t, h⟩ := compiles
      exact readable_of_compile h
    · exact exists_compile w once'
  refine ⟨reads, fun t h data context => ⟨?_, ?_, ?_, ?_⟩⟩
  · intro p path here
    obtain ⟨u, found, leaf⟩ := order.at? here
    cases leaf.top.2 rfl
    obtain ⟨s, read, built⟩ := at?_build data context h found
    cases compiled_of_compile read with
    | @leaf _ plan planned => exact ⟨plan, planned, built⟩
  · intro p items here
    obtain ⟨u, found, rearranged⟩ := order.at? here
    obtain ⟨s, read, built⟩ := at?_build data context h found
    cases compiled_of_compile read with
    | leaf _ => cases rearranged.top.1
    | object _ => cases rearranged.top.1
    | @array ys ts parts =>
      refine ⟨_, built, ?_⟩
      rw [buildItems_eq_map, List.length_map, ← parts.length_eq, rearranged.length_eq]
  · intro p members here
    obtain ⟨u, found, rearranged⟩ := order.at? here
    obtain ⟨s, read, built⟩ := at?_build data context h found
    cases compiled_of_compile read with
    | leaf _ => cases rearranged.top.1
    | array _ => cases rearranged.top.1
    | @object ns ts parts =>
      have keys : ns.map Prod.fst = ts.map Prod.fst :=
        List.forall₂_eq_eq_eq ▸ List.forall₂_map_left_iff.mpr
          (List.forall₂_map_right_iff.mpr (parts.imp fun _ _ same => same.1))
      refine ⟨_, built, ?_⟩
      rw [buildMembers_eq_map, List.map_map]
      have perm := rearranged.perm_keys (once.at? here) (once'.at? found)
      rw [keys] at perm
      exact perm.symm
  · obtain ⟨s, read⟩ := exists_compile v once (reads.mp ⟨t, h⟩)
    exact ⟨s, read, rearranged_build order read h⟩

/-- A template with its members in another order, where one path stands in an array. -/
theorem compile_build_shape_swapped :
    ∃ t, compile .standard (.object [("b", .array [.string "$.y"]), ("a", .string "$.x")]) = .ok t ∧
      ∀ data context,
        (∃ plan, Plan.compile .standard "$.y" = .ok plan ∧
          at? [.member "b", .item 0] (build data context t) = some (plan.run data context)) ∧
        ∃ members, at? [] (build data context t) = some (.object members) ∧
          (members.map Prod.fst).Perm ["a", "b"] := by
  let v : Value := .object [("a", .string "$.x"), ("b", .array [.string "$.y"])]
  let w : Value := .object [("b", .array [.string "$.y"]), ("a", .string "$.x")]
  have items : (Value.array [.string "$.y"]).KeysOnce := by
    apply Value.keysOnce_array
    intro u hu
    cases List.mem_singleton.mp hu
    exact Value.keysOnce_of_scalar rfl
  have once : v.KeysOnce := by
    apply Value.keysOnce_object (by decide)
    simpa using ⟨Value.keysOnce_of_scalar rfl, items⟩
  have once' : w.KeysOnce := by
    apply Value.keysOnce_object (by decide)
    simpa using ⟨items, Value.keysOnce_of_scalar rfl⟩
  have order : v.Rearranged w := Value.rearranged_of_perm (List.Perm.swap ..) (by decide)
  obtain ⟨accepts, built⟩ := compile_build_shape .standard once once' order
  have read : compile .standard w = .ok (.object [("b", .array [.leaf ⟨"$.y", [⟨"y", false⟩], []⟩]),
      ("a", .leaf ⟨"$.x", [⟨"x", false⟩], []⟩)]) := by with_unfolding_all rfl
  refine ⟨_, read, fun data context => ?_⟩
  obtain ⟨leaves, -, objects, -⟩ := built _ read data context
  exact ⟨leaves [.member "b", .item 0] "$.y" rfl, objects [] _ rfl⟩

end Template

end DocumentPath
