import Acpi.Proofs.Namespace.Growth
import Acpi.Proofs.Run

namespace Acpi.Namespace

variable {ns ns' : Namespace} {scope p c : ObjectId} {o : Object} {name : NameSeg} {text : String}

theorem declare_of_obstacle? (h : (ns.insert o).obstacle? p ns.nextId = none) :
    ns.declare p o = (.ok ns.nextId, (ns.insert o).link p ns.nextId) := by
  rw [declare, attach, h]

/-- A new object under a name is found under it, unless there was one before it: then that one is
found as before. An id can be had for it as long as there are fewer than `2 ^ 32` objects. -/
theorem lookup_of_declare (h : ns.Reachable) (hsize : ns.size ≤ ObjectId.last)
    (hplace : ns.place? scope text = some (p, name)) (ho : o.Fresh) (hn : o.name = some name) :
    ∃ id ns', ns.declare p o = (.ok id, ns') ∧ id.index = ns.size ∧
      (ns.child? p name = none → ns'.lookup? scope text = some id) ∧
      ∀ c, ns.child? p name = some c →
        ns.lookup? scope text = some c ∧ ns'.lookup? scope text = some c := by
  have w := h.wellFormed
  obtain ⟨path, hpath, hpp⟩ := place?_eq_some.1 hplace
  obtain ⟨-, -, -, -, -, k, hk, hcont⟩ := placePath?_eq_some.1 hpp
  -- both edits keep the way down to the place, so only the last step has to be looked at
  have hobs := w.obstacle?_insert ho.alone hsize hk hcont
  have hgrows := (w.grows_insert ho.alone).trans (grows_link hobs)
  have hpp' := hgrows.placePath? hpp
  have hp : (ns.insert o).contains p = true := contains_of_kind? (kind?_insert hk)
  have hname : (ns.insert o).name? ns.nextId = some name := by
    rw [Namespace.name?, get?_insert, if_pos (index_nextId hsize)]
    exact hn
  refine ⟨ns.nextId, _, declare_of_obstacle? hobs, index_nextId hsize, ?_, ?_⟩
  · intro hfree
    refine lookup?_eq_some.2 ⟨path, hpath, lookupPath?_of_placePath? hpp' ?_⟩
    rw [child?_link hp, if_pos ⟨rfl, hname⟩, w.child?_insert ho.alone, hfree, Option.none_or]
  · intro c hc
    exact ⟨lookup?_eq_some.2 ⟨path, hpath, lookupPath?_of_placePath? hpp hc⟩,
      lookup?_eq_some.2 ⟨path, hpath, lookupPath?_of_placePath? hpp' (hgrows.child? hc)⟩⟩

/-- A tree, and beside it a method with a device in it that hang nowhere. -/
def spareMethod : List Action :=
  let table : TableId := ⟨1⟩
  let sb := ObjectId.ofIndex 1
  let spare := ObjectId.ofIndex 4
  [.declare .root (.scope table (.ofFour 0x5F 0x53 0x42 0x5F)),
   .declare sb (.device table (.ofFour 0x50 0x43 0x49 0x30)),
   .declare .root (.method table (.ofFour 0x5F 0x4F 0x53 0x49)),
   .insert (.method table (.ofFour 0x5F 0x4F 0x53 0x49)),
   .declare spare (.device table (.ofFour 0x44 0x45 0x56 0x30))]

theorem allowed_spareMethod : ∀ a ∈ spareMethod, a.Allowed := by
  simp [spareMethod, Action.Allowed]

theorem lookup_of_siblingDevice :
    ∃ ns, initial.run? spareMethod = some ns ∧ ns.Reachable ∧ ns.size ≤ ObjectId.last ∧
      (∃ id ns',
        ns.declare (.ofIndex 1) (.device ⟨1⟩ (.ofFour 0x50 0x43 0x49 0x31)) = (.ok id, ns') ∧
        id.index = 6 ∧ ns'.lookup? (.ofIndex 2) "^PCI1" = some id) ∧
      ∃ id ns',
        ns.declare (.ofIndex 1) (.device ⟨1⟩ (.ofFour 0x50 0x43 0x49 0x30)) = (.ok id, ns') ∧
        id.index = 6 ∧ ns'.lookup? .root "_SB.PCI0" = some (.ofIndex 2) := by
  have hc : ∃ ns ∈ initial.run? spareMethod, ns.size = 6 ∧
      ns.place? (.ofIndex 2) "^PCI1" = some (.ofIndex 1, .ofFour 0x50 0x43 0x49 0x31) ∧
      ns.place? .root "_SB.PCI0" = some (.ofIndex 1, .ofFour 0x50 0x43 0x49 0x30) ∧
      ns.child? (.ofIndex 1) (.ofFour 0x50 0x43 0x49 0x31) = none ∧
      ns.child? (.ofIndex 1) (.ofFour 0x50 0x43 0x49 0x30) = some (.ofIndex 2) := by
    decide +kernel
  obtain ⟨ns, hr, hsize, hfree, htaken, hnone, hsome⟩ := hc
  have h : ns.Reachable := ⟨spareMethod, allowed_spareMethod, hr⟩
  have hle : ns.size ≤ ObjectId.last := by
    rw [hsize]
    decide
  obtain ⟨id, ns₁, hd₁, hid₁, hnew, -⟩ :=
    lookup_of_declare h hle hfree (.constructed (.device ⟨1⟩ _)) rfl
  obtain ⟨id₂, ns₂, hd₂, hid₂, -, hold⟩ :=
    lookup_of_declare h hle htaken (.constructed (.device ⟨1⟩ _)) rfl
  exact ⟨ns, hr, h, hle, ⟨id, ns₁, hd₁, hid₁.trans hsize, hnew hnone⟩,
    ⟨id₂, ns₂, hd₂, hid₂.trans hsize, (hold _ hsome).2⟩⟩

/-- The text is a bare name that `c` bears, and `p` is nearer to `scope` than the object above what
was found. -/
def Hides (ns : Namespace) (p c scope : ObjectId) (text : String) (found : ObjectId) : Prop :=
  ∃ path name, Path.ofText text = .ok path ∧ path.bareName? = some name ∧
    ns.name? c = some name ∧ ns.Nearer scope p found

/-- Attaching an object changes no place that a name leads to, and no lookup but those that the new
child hides. -/
theorem lookups_of_attach (h : ns.Reachable) (ha : ns.attach p c = .ok ns') (scope : ObjectId)
    (text : String) :
    (∀ r, ns.place? scope text = some r → ns'.place? scope text = some r) ∧
    ∀ found, ns.lookup? scope text = some found →
      (ns.Hides p c scope text found → ns'.lookup? scope text = some c) ∧
      (¬ns.Hides p c scope text found → ns'.lookup? scope text = some found) := by
  have w := h.wellFormed
  obtain ⟨hobs, rfl⟩ := attach_eq_ok.1 ha
  have hgrows := grows_link hobs
  refine ⟨fun r => hgrows.place?, ?_⟩
  intro found hfound
  obtain ⟨path, hpath, hlook⟩ := lookup?_eq_some.1 hfound
  constructor
  · rintro ⟨path', name, hpath', hbare, hn, hnear⟩
    rw [hpath] at hpath'
    cases hpath'
    refine lookup?_eq_some.2 ⟨path, hpath, ?_⟩
    rw [lookupPath?, hbare] at hlook ⊢
    exact w.search?_link_of_nearer hobs hlook hn hnear
  · intro hnot
    refine lookup?_eq_some.2 ⟨path, hpath, ?_⟩
    cases hbare : path.bareName? with
    | none => exact hgrows.lookupPath? hbare hlook
    | some name =>
      rw [lookupPath?, hbare] at hlook ⊢
      refine w.search?_link_of_not_nearer hobs hlook ?_
      intro hn hnear
      exact hnot ⟨path, name, hpath, hbare, hn, hnear⟩

/-- The spare method hides the one at the root from all that is below its new place. -/
theorem lookups_of_spareMethod :
    ∃ ns ns', initial.run? spareMethod = some ns ∧ ns.Reachable ∧
      ns.attach (.ofIndex 1) (.ofIndex 4) = .ok ns' ∧
      ns.Hides (.ofIndex 1) (.ofIndex 4) (.ofIndex 2) "_OSI" (.ofIndex 3) ∧
      ns.lookup? (.ofIndex 2) "_OSI" = some (.ofIndex 3) ∧
      ns'.lookup? (.ofIndex 2) "_OSI" = some (.ofIndex 4) ∧
      ¬ns.Hides (.ofIndex 1) (.ofIndex 4) .root "_OSI" (.ofIndex 3) ∧
      ns'.lookup? .root "_OSI" = some (.ofIndex 3) := by
  let osi : NameSeg := .ofFour 0x5F 0x4F 0x53 0x49
  have hc : ∃ ns ∈ initial.run? spareMethod,
      ns.obstacle? (.ofIndex 1) (.ofIndex 4) = none ∧
      ns.lookup? (.ofIndex 2) "_OSI" = some (.ofIndex 3) ∧
      ns.lookup? .root "_OSI" = some (.ofIndex 3) ∧ ns.name? (.ofIndex 4) = some osi ∧
      ns.parent? (.ofIndex 3) = some .root ∧ ns.lineage .root = [.root] ∧
      ns.lineage (.ofIndex 2) = [.ofIndex 2, .ofIndex 1, .root] := by
    decide +kernel
  have hbare : (Path.ofText "_OSI").toOption.bind Path.bareName? = some osi := by decide +kernel
  obtain ⟨ns, hr, hobs, hbelow, htop, hname, hup, hroot, hline⟩ := hc
  have h : ns.Reachable := ⟨spareMethod, allowed_spareMethod, hr⟩
  have ha := attach_eq_ok.2 ⟨hobs, rfl⟩
  obtain ⟨path, hpath, -⟩ := lookup?_eq_some.1 hbelow
  rw [hpath] at hbare
  have hhides : ns.Hides (.ofIndex 1) (.ofIndex 4) (.ofIndex 2) "_OSI" (.ofIndex 3) := by
    refine ⟨path, osi, hpath, hbare, hname, ?_, .root, hup, ?_⟩
    · rw [hline]
      decide
    · rw [hline]
      decide
  have hfar : ¬ns.Hides (.ofIndex 1) (.ofIndex 4) .root "_OSI" (.ofIndex 3) := by
    rintro ⟨-, -, -, -, -, hmem, -⟩
    rw [hroot] at hmem
    exact absurd hmem (by decide)
  obtain ⟨-, hchanged⟩ := lookups_of_attach h ha (.ofIndex 2) "_OSI"
  obtain ⟨-, hkept⟩ := lookups_of_attach h ha .root "_OSI"
  exact ⟨ns, _, hr, h, ha, hhides, hbelow, (hchanged _ hbelow).1 hhides, hfar,
    (hkept _ htop).2 hfar⟩

end Acpi.Namespace
