import Acpi.Namespace.Preorder
import Acpi.Proofs.Namespace.WellFormed

namespace Acpi.Namespace

open Relation

variable {ns : Namespace} {id x : ObjectId} {ids visits : List ObjectId}

/-- One step down, from an object to a child. -/
def Down (ns : Namespace) (p c : ObjectId) : Prop := c ∈ ns.children p

/-- `Preorder ns ids visits`: each of `ids` comes before all that lies below it, and that before
the next of `ids`. -/
inductive Preorder (ns : Namespace) : List ObjectId → List ObjectId → Prop
  | nil : Preorder ns [] []
  | cons {id : ObjectId} {ids below others : List ObjectId}
    (hb : Preorder ns (ns.children id) below) (ho : Preorder ns ids others) :
    Preorder ns (id :: ids) (id :: below ++ others)

theorem Preorder.cons_of_singleton {first others : List ObjectId} (hf : ns.Preorder [id] first)
    (ho : ns.Preorder ids others) : ns.Preorder (id :: ids) (first ++ others) := by
  cases hf with
  | cons hb hn =>
    cases hn
    simpa using hb.cons ho

theorem exists_mapM {f : ObjectId → Option (List ObjectId)}
    (h : ∀ c ∈ ids, ∃ visits, f c = some visits) : ∃ below, ids.mapM f = some below := by
  induction ids with
  | nil => exact ⟨[], rfl⟩
  | cons c ids ih =>
    obtain ⟨first, hf⟩ := h c List.mem_cons_self
    obtain ⟨others, ho⟩ := ih fun d hd => h d (List.mem_cons_of_mem c hd)
    exact ⟨first :: others, mapM_eq_some_cons.2 ⟨first, others, hf, ho, rfl⟩⟩

theorem mem_flatten_mapM {f : ObjectId → Option (List ObjectId)} {below : List (List ObjectId)}
    (h : ids.mapM f = some below) :
    x ∈ below.flatten ↔ ∃ c ∈ ids, ∃ visits, f c = some visits ∧ x ∈ visits := by
  induction ids generalizing below with
  | nil =>
    cases h
    simp
  | cons c ids ih =>
    obtain ⟨first, others, hf, ho, rfl⟩ := mapM_eq_some_cons.1 h
    simp [ih ho, hf]

theorem exists_of_mapM {f : ObjectId → Option (List ObjectId)} {below : List (List ObjectId)}
    (h : ids.mapM f = some below) : ∀ c ∈ ids, ∃ visits, f c = some visits := by
  induction ids generalizing below with
  | nil => simp
  | cons c ids ih =>
    obtain ⟨first, others, hf, ho, rfl⟩ := mapM_eq_some_cons.1 h
    intro d hd
    rcases List.mem_cons.1 hd with rfl | hd
    · exact ⟨first, hf⟩
    · exact ih ho d hd

theorem preorder_flatten_mapM {f : ObjectId → Option (List ObjectId)}
    {below : List (List ObjectId)} (hf : ∀ {c visits}, f c = some visits → ns.Preorder [c] visits)
    (h : ids.mapM f = some below) : ns.Preorder ids below.flatten := by
  induction ids generalizing below with
  | nil =>
    cases h
    exact .nil
  | cons c ids ih =>
    obtain ⟨first, others, h₁, h₂, rfl⟩ := mapM_eq_some_cons.1 h
    rw [List.flatten_cons]
    exact (hf h₁).cons_of_singleton (ih h₂)

theorem preorder?_succ {depth : Nat} :
    ns.preorder? (depth + 1) id = some visits ↔
      ∃ below, (ns.children id).mapM (ns.preorder? depth) = some below ∧
        visits = id :: below.flatten := by
  rw [preorder?, Option.map_eq_some_iff]
  constructor
  · rintro ⟨below, hb, rfl⟩
    exact ⟨below, hb, rfl⟩
  · rintro ⟨below, hb, rfl⟩
    exact ⟨below, hb, rfl⟩

theorem preorder_of_preorder? {depth : Nat} (h : ns.preorder? depth id = some visits) :
    ns.Preorder [id] visits := by
  induction depth generalizing id visits with
  | zero => cases h
  | succ depth ih =>
    obtain ⟨below, hb, rfl⟩ := preorder?_succ.1 h
    simpa using (preorder_flatten_mapM ih hb).cons .nil

theorem mem_preorder?_iff {depth : Nat} (h : ns.preorder? depth id = some visits) :
    x ∈ visits ↔ ReflTransGen ns.Down id x := by
  induction depth generalizing id visits with
  | zero => cases h
  | succ depth ih =>
    obtain ⟨below, hb, rfl⟩ := preorder?_succ.1 h
    rw [List.mem_cons, mem_flatten_mapM hb]
    constructor
    · rintro (rfl | ⟨c, hc, visits, hv, hx⟩)
      · exact .refl
      · exact .head hc ((ih hv).1 hx)
    · intro hx
      rcases hx.cases_head with rfl | ⟨c, hc, hx⟩
      · exact .inl rfl
      · obtain ⟨visits, hv⟩ := exists_of_mapM hb c hc
        exact .inr ⟨c, hc, visits, hv, (ih hv).2 hx⟩

/-- A walk may go as deep as there are objects other than the ones above. -/
theorem exists_preorder? (hin : ∀ {p c}, c ∈ ns.children p → ns.contains c = true) {depth : Nat}
    {above : List ObjectId} (hid : ns.contains id = true)
    (hloop : ∀ x, ReflTransGen ns.Down id x → ¬TransGen ns.Down x x)
    (hn : (id :: above).Nodup)
    (habove : ∀ x ∈ above, ns.contains x = true ∧ TransGen ns.Down x id)
    (hd : ns.size < above.length + 1 + depth) : ∃ visits, ns.preorder? depth id = some visits := by
  induction depth generalizing id above with
  | zero =>
    have hle : (id :: above).length ≤ ns.size := by
      apply length_le_size hn
      exact List.forall_mem_cons.2 ⟨hid, fun x hx => (habove x hx).1⟩
    rw [List.length_cons] at hle
    omega
  | succ depth ih =>
    have hbelow : ∀ c ∈ ns.children id, ∃ visits, ns.preorder? depth c = some visits := by
      intro c hc
      have hloop' : ∀ x, ReflTransGen ns.Down c x → ¬TransGen ns.Down x x :=
        fun x hx => hloop x (.head hc hx)
      have habove' : ∀ x ∈ id :: above, ns.contains x = true ∧ TransGen ns.Down x c := by
        intro x hx
        rcases List.mem_cons.1 hx with rfl | hx
        · exact ⟨hid, .single hc⟩
        · exact ⟨(habove x hx).1, (habove x hx).2.tail hc⟩
      have hnew : c ∉ id :: above := fun hmem => hloop' c .refl (habove' c hmem).2
      refine ih (hin hc) hloop' (List.nodup_cons.2 ⟨hnew, hn⟩) habove' ?_
      rw [List.length_cons]
      omega
    obtain ⟨below, hb⟩ := exists_mapM hbelow
    exact ⟨_, preorder?_succ.2 ⟨below, hb, rfl⟩⟩

theorem exists_subtree? (hin : ∀ {p c}, c ∈ ns.children p → ns.contains c = true)
    (hloop : ∀ x, ReflTransGen ns.Down id x → ¬TransGen ns.Down x x) :
    ∃ visits, ns.subtree? id = some visits := by
  by_cases hid : ns.contains id = true
  · rw [subtree?, if_pos hid]
    have hsize : ns.size < ([] : List ObjectId).length + 1 + ns.size := by
      rw [List.length_nil]
      omega
    exact exists_preorder? hin hid hloop (by simp) (by simp) hsize
  · exact ⟨[], by rw [subtree?, if_neg hid]⟩

theorem Descends.not_loop (d : ns.Descends) (x : ObjectId) : ¬TransGen ns.Down x x := by
  intro hx
  have hup : TransGen (Function.swap ns.Up) x x :=
    TransGen.mono (fun _ _ hc => d.parent?_of_mem hc) x x hx
  exact d.climbs.acyclic x (transGen_swap.1 hup)

theorem Descends.exists_subtree? (d : ns.Descends) (id : ObjectId) :
    ∃ visits, ns.subtree? id = some visits :=
  Namespace.exists_subtree? (fun hc => contains_of_parent? (d.parent?_of_mem hc))
    fun x _ => d.not_loop x

/-- The walk comes to a point where nothing waits. -/
def Cursor.Ends (ns : Namespace) (c : Cursor) : Prop :=
  ∃ visits, c.run ns visits.length = (visits, ⟨[]⟩)

theorem run_of_subtree? (h : ns.subtree? id = some visits) :
    (ns.cursor id).run ns visits.length = (visits, ⟨[]⟩) := by
  rw [subtree?] at h
  split at h
  next hid =>
    rw [cursor, if_pos hid]
    exact run_preorder? h []
  next hid =>
    cases h
    rw [cursor, if_neg hid]
    rfl

theorem ends_of_subtree? (h : ns.subtree? id = some visits) : (ns.cursor id).Ends ns :=
  ⟨visits, run_of_subtree? h⟩

/-- While one of the objects that wait is of a kind of which each has a child of that kind, there is
always a next visit. -/
theorem Cursor.length_run {S : ObjectId → Prop} (hS : ∀ y, S y → ∃ c ∈ ns.children y, S c)
    {c : Cursor} (hc : ∃ y ∈ c.waiting, S y) (n : Nat) : (c.run ns n).1.length = n := by
  induction n generalizing c with
  | zero => rfl
  | succ n ih =>
    obtain ⟨y, hy, hSy⟩ := hc
    cases c with
    | mk waiting =>
      cases waiting with
      | nil => cases hy
      | cons head rest =>
        have hnext : ∃ z ∈ ns.children head ++ rest, S z := by
          rcases List.mem_cons.1 hy with rfl | hy
          · obtain ⟨z, hz, hSz⟩ := hS y hSy
            exact ⟨z, List.mem_append_left rest hz, hSz⟩
          · exact ⟨y, List.mem_append_right _ hy, hSy⟩
        have hlen := ih (c := ⟨ns.children head ++ rest⟩) hnext
        simp only [run, next?, List.length_cons, hlen]

/-- A loop that the start leads down to is never left behind. -/
theorem length_run_of_loop (hid : ns.contains id = true) (hx : ReflTransGen ns.Down id x)
    (hloop : TransGen ns.Down x x) (n : Nat) : ((ns.cursor id).run ns n).1.length = n := by
  have hstep : ∀ y, ReflTransGen ns.Down y x → ∃ c ∈ ns.children y, ReflTransGen ns.Down c x := by
    intro y hy
    have hway : TransGen ns.Down y x := TransGen.trans_right hy hloop
    obtain ⟨c, hc, hcx⟩ := TransGen.head'_iff.1 hway
    exact ⟨c, hc, hcx⟩
  rw [cursor, if_pos hid]
  exact Cursor.length_run hstep ⟨id, List.mem_singleton_self id, hx⟩ n

theorem Cursor.not_ends_of_length {c : Cursor} (h : ∀ n, (c.run ns n).1.length = n) :
    ¬c.Ends ns := by
  intro hends
  obtain ⟨visits, hv⟩ := hends
  have hmore := h (visits.length + 1)
  rw [run_add, hv] at hmore
  simp [run, next?] at hmore

/-- A walk ends just where no object it comes to is below itself. -/
theorem ends_cursor_iff (hin : ∀ {p c}, c ∈ ns.children p → ns.contains c = true)
    (hid : ns.contains id = true) :
    (ns.cursor id).Ends ns ↔ ∀ x, ReflTransGen ns.Down id x → ¬TransGen ns.Down x x := by
  constructor
  · intro hends x hx hloop
    exact Cursor.not_ends_of_length (length_run_of_loop hid hx hloop) hends
  · intro hloop
    obtain ⟨visits, hv⟩ := exists_subtree? hin hloop
    exact ends_of_subtree? hv

theorem preorder?_of_subtree? (h : ns.subtree? .root = some visits) :
    ns.preorder? ns.size .root = some visits := by
  rwa [subtree?, if_pos ns.contains_root] at h

theorem mem_subtree?_root (h : ns.subtree? .root = some visits) :
    x ∈ visits ↔ ReflTransGen ns.Down .root x :=
  mem_preorder?_iff (preorder?_of_subtree? h)

/-- The way down to an object is the way up from it, in reverse. -/
theorem WellFormed.down_iff (w : ns.WellFormed) :
    ReflTransGen ns.Down id x ↔ id ∈ ns.lineage x := by
  rw [w.climbs.mem_lineage_iff, ← reflTransGen_swap]
  have hswap : Function.swap ns.Down = ns.Up := by
    funext c p
    exact propext w.mem_children_iff
  rw [hswap]

end Acpi.Namespace
