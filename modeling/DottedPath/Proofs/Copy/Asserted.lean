import DottedPath.Assertion
import DottedPath.Proofs.Copy.Edits
import DottedPath.Proofs.Tree.Equal
import DottedPath.Proofs.Tree.Twins
import DottedPath.Proofs.Tree.Unshared

/-!
# What is written passes an assertion

An assertion tests a path, reads it and compares what is read with what is expected. What it comes to
depends on the tree of the mapping alone (`assertValue_of_showsAt`), and values of one tree are equal.

A copying write stores the value itself in a copy, where it is read back by the path with its indices,
and then copies the copy. Neither copy changes the tree: the indices are the same in the first one
(`numbered_eq_of_shows`), and the second one has, by the same path, a copy of the value. So it passes
the assertion of the value. That the copy reaches no cycle, whatever there is elsewhere, follows from
its being laid out as a tree (`Lays.acyclicFrom`). This is `assertions_hold`, which also has the
assertion of a deep copy of what is read from a tree.
-/

set_option autoImplicit false
set_option relaxedAutoImplicit false

namespace DottedPath

open Scan Heap

namespace Scan

/-- Work that is done afresh ends as it does with any parser. -/
theorem Steady.exists_afresh {α : Type} {work : Scan α} (hwork : Steady work) (config : Config)
    {w : Workplace} {a : α} {h : Heap} (heffect : work.effect w.heap = (.ok a, h)) :
    ∃ w', afresh config work w = .ok a w' ∧ w'.heap = h := by
  obtain ⟨w', hrun, hheap⟩ :=
    hwork.exists_of_effect (w := { w with parser := w.parser.fresh config.cacheSize }) heffect
  exact ⟨{ w' with parser := w.parser }, by rw [afresh, hrun], hheap⟩

/-- What an assertion does below a root mapping. -/
def assertFrom (path : String) (expected : Value) (root : Ref) : Scan Unit := do
  if ← has root path then
    let actual ← get root path
    inspect fun h ↦
      if h.equal actual expected then .ok ()
      else .error (.assertion path (.unequal actual expected))
  else throw (.assertion path (.absent expected))

section AssertFrom

variable {h : Heap} {r : Ref} {path : String} {actual expected : Value}

/-- What follows the test of an assertion. -/
theorem steady_ite_assertion (r : Ref) (path : String) (expected : Value) (found : Bool) :
    Steady (if found then get r path >>= fun actual ↦ inspect fun h ↦
        if h.equal actual expected then .ok ()
        else .error (.assertion path (.unequal actual expected))
      else throw (.assertion path (.absent expected))) := by
  cases found with
  | true => exact (follows_get.steady r path).bind fun _ ↦ steady_inspect _
  | false => exact steady_throw _

theorem steady_assertFrom (path : String) (expected : Value) (r : Ref) :
    Steady (assertFrom path expected r) :=
  (follows_has.steady r path).bind (steady_ite_assertion r path expected)

/-- An assertion of what a test finds and a read gives holds, if the value read is equal to the one
expected. -/
theorem effect_assertFrom (hhas : (has r path).effect h = (.ok true, h))
    (hget : (get r path).effect h = (.ok actual, h)) (hequal : h.equal actual expected = true) :
    (assertFrom path expected r).effect h = (.ok (), h) := by
  rw [assertFrom, effect_bind (steady_ite_assertion r path expected), hhas, andThen_ok, if_pos rfl,
    effect_bind fun _ ↦ steady_inspect _, hget, andThen_ok, effect_inspect, if_pos hequal]

end AssertFrom

end Scan

namespace Heap

section ShowsAt

variable {h h' : Heap} {v : Value} {t : Tree} {r : Ref} {path : String}

/-- In the tree the path, which can be read, leads to a slot with what the value is laid out as. -/
structure ShowsAt (h : Heap) (t : Tree) (path : String) (v : Value) : Prop where
  readable : Path.Readable path
  has_eq : Tree.has (Path.hops path) t = .ok true
  get_eq : ∃ tv, Tree.get (Path.hops path) t = .ok tv ∧ h.Shows v tv

/-- What a test finds and a read gives is in the tree. -/
theorem showsAt_of_scans (hroot : h.IsMapping r) (hshows : h.Shows (.object r) t)
    (hhas : ((has r path).effect h).1 = .ok true) (hget : ((get r path).effect h).1 = .ok v) :
    h.ShowsAt t path v := by
  have hreadable := readable_of_has hhas
  have hagrees := agrees_has hreadable hroot hshows
  have hagrees' := agrees_get hreadable hroot hshows
  rw [hhas] at hagrees
  rw [hget] at hagrees'
  obtain ⟨_, hfound, rfl⟩ := hagrees.exists_of_ok_left
  exact ⟨hreadable, hfound, hagrees'.exists_of_ok_left⟩

/-- It depends on the tree of the value alone. -/
theorem ShowsAt.congr {v' : Value} (hat : h.ShowsAt t path v)
    (hsame : ∀ tv, h.Shows v tv → h'.Shows v' tv) : h'.ShowsAt t path v' := by
  obtain ⟨tv, hget, hv⟩ := hat.get_eq
  exact ⟨hat.readable, hat.has_eq, tv, hget, hsame tv hv⟩

end ShowsAt

end Heap

section Assert

variable {w : Workplace} {r : Ref} {path : String} {v : Value} {t : Tree}

/-- Assumes: a mapping that is laid out as a tree in which a path leads to a slot with the tree of a
value, which is not not-a-number. The assertion of this value holds. -/
theorem assertValue_of_showsAt (hroot : w.heap.IsMapping r) (hshows : w.heap.Shows (.object r) t)
    (hat : w.heap.ShowsAt t path v) (hnumber : ¬ w.heap.IsNotNumber v) :
    ∃ w', assertValue (.object r) path v w = .ok () w' := by
  obtain ⟨hreadable, hhas, tv, hget, hv⟩ := hat
  have hagrees := agrees_has hreadable hroot hshows
  have hagrees' := agrees_get hreadable hroot hshows
  rw [hhas] at hagrees
  rw [hget] at hagrees'
  obtain ⟨_, hfound, rfl⟩ := hagrees.exists_of_ok_right
  obtain ⟨x, hread, hx⟩ := hagrees'.exists_of_ok_right
  have hequal : w.heap.equal x v = true :=
    equal_of_shows hx hv fun hx' ↦ hnumber (hx'.of_shows hx hv)
  have hasserted := effect_assertFrom (Prod.ext hfound (follows_has.effect_snd r path w.heap))
    (Prod.ext hread (follows_get.effect_snd r path w.heap)) hequal
  obtain ⟨kind, entries, hcell⟩ := hroot
  have hborrow : (borrow (.object r)).effect w.heap = (.ok ⟨r, .borrowed⟩, w.heap) := by
    simp [borrow, effect_inspect, Heap.node, hcell]
  have hsteady : Steady (borrow (.object r)) := steady_inspect _
  have hassert := fun scanner : Scanner ↦ steady_assertFrom path v scanner.root
  have heffect : (borrow (.object r) >>= fun scanner ↦ assertFrom path v scanner.root).effect w.heap =
      (.ok (), w.heap) := by
    rw [effect_bind hassert, hborrow, andThen_ok, hasserted]
  obtain ⟨w', hrun, -⟩ := (hsteady.bind hassert).exists_afresh {} heffect
  exact ⟨w', hrun⟩

/-- The assertion of a deep copy of what a path leads to in the tree holds. -/
theorem exists_assertValue_of_clone (hroot : w.heap.IsMapping r)
    (hshows : w.heap.Shows (.object r) t) (hat : w.heap.ShowsAt t path v)
    (hnumber : ¬ w.heap.IsNotNumber v) :
    ∃ copy w' w'', clone v w = .ok copy w' ∧
      assertValue (.object r) path copy w' = .ok () w'' := by
  obtain ⟨tv, -, hv⟩ := hat.get_eq
  obtain ⟨copy, w', rs, hclone, hcopies⟩ := exists_clone_copies hv
  have hext := hcopies.extends_
  have hroot' : w'.heap.IsMapping r := by
    obtain ⟨ss, hlays⟩ := hshows
    exact (hlays.of_extends hext).isMapping.mp (hlays.isMapping.mpr hroot)
  have hat' : w'.heap.ShowsAt t path copy := hat.congr fun u hu ↦
    hv.unique hu ▸ ⟨rs, hcopies.lays⟩
  obtain ⟨w'', hasserts⟩ := assertValue_of_showsAt hroot' (hshows.of_extends hext) hat'
    fun hcopy ↦ hnumber (hcopy.of_copies hcopies hv)
  exact ⟨copy, w', w'', hclone, hasserts⟩

/-- Assumes: a mapping and a value that are laid out as trees, and a write there that succeeds in a
mapping that owns its tree, apart from the value. Afterwards the mapping is laid out as a tree in
which the path by which the value is read leads to it. -/
theorem exists_showsAt_of_set {limit : Option Nat} {path' : String} {h h' : Heap} {tv : Tree}
    {rs ss : List Ref} (howns : h.Owns (.object r) t rs) (hroot : h.IsMapping r)
    (hv : h.Lays [v] [tv] ss) (hdisjoint : rs.Disjoint ss) (hpath : h.ReadsBack r path path')
    (hset : (set limit r path v).effect h = (.ok (), h')) :
    ∃ t', h'.Shows (.object r) t' ∧ t'.kind = .mapping ∧ h'.ShowsAt t' path' v ∧
      h.ChangesOnly h' rs := by
  obtain ⟨before, slot, behind, c, item, hchange⟩ :=
    (writes_of_set hset).changesSlot_of_acyclicFrom howns.lays.acyclicFrom
      (suitsAt_slots hroot path)
  have hreadable : Path.Readable path' := by
    cases hpath with
    | itself _ => exact readable_of_set hset
    | numbered hreadable => exact hreadable
  have hfinds : h'.Finds r (Path.slots path') v := by
    rw [hpath.slots_eq]
    exact hchange.finds_of_acyclicFrom howns.lays.acyclicFrom
  obtain ⟨hget, hhas⟩ := effect_of_finds hreadable hfinds
  obtain ⟨y, hcomes⟩ := settles_set limit path v tv t
  have hyields := hcomes h r rs ss howns (suitsAt_field_iff.mpr hroot) hv hdisjoint
  beta_reduce at hyields
  rw [hset] at hyields
  cases hyields with
  | @ok _ t' rs' hlays hkind _ hchanges =>
    have hkind' : t'.kind = .mapping := hkind.trans (howns.lays.isMapping.mpr hroot)
    refine ⟨t', ⟨rs', hlays⟩, hkind', ?_, hchanges⟩
    exact showsAt_of_scans (hlays.isMapping.mp hkind') ⟨rs', hlays⟩ (congrArg Prod.fst hhas)
      (congrArg Prod.fst hget)

/-- A copying write gives a mapping in which the value is found by the path by which it is read. -/
theorem exists_showsAt_of_withValue {config : Config} {w' : Workplace} {path' : String}
    {copy : Value} {tv : Tree} (hroot : w.heap.IsMapping r) (hshows : w.heap.Shows (.object r) t)
    (hv : w.heap.Shows v tv) (hpath : w.heap.ReadsBack r path path')
    (hwith : OneShot.withValue config (.object r) path v w = .ok copy w') :
    w.heap.Extends w'.heap ∧ ∃ r' t', copy = .object r' ∧ w'.heap.IsMapping r' ∧
      w'.heap.Shows (.object r') t' ∧ w'.heap.ShowsAt t' path' v := by
  obtain ⟨rs, hlays⟩ := hshows
  obtain ⟨ss, hv⟩ := hv
  obtain ⟨root, h₁, rs₁, hown, hcopies, hroot₁⟩ :=
    own_of_isMapping (w := { w with parser := w.parser.fresh config.cacheSize }) hroot hlays
  simp only [OneShot.withValue, afresh, bind, EStateM.bind, hown] at hwith
  cases hrun : set config.maxIndex root path v
      { w with parser := w.parser.fresh config.cacheSize, heap := h₁ } with
  | error e w₂ => simp [hrun] at hwith
  | ok u w₂ =>
    simp only [hrun] at hwith
    have hset := (steady_set config.maxIndex root path v).effect_of_ok hrun
    have hdisjoint : rs₁.Disjoint ss := fun x hx hxs ↦
      Nat.not_lt_of_le (hcopies.fresh x hx) (hv.lt_size hxs)
    obtain ⟨t', ⟨rs₂, hlays'⟩, hkind, hat, hchange⟩ :=
      exists_showsAt_of_set hcopies.owns hroot₁ (hv.of_extends hcopies.extends_) hdisjoint
        (hpath.of_shows ⟨rs, hlays⟩ ⟨rs₁, hcopies.lays⟩) hset
    obtain ⟨copied, h₃, rs₃, htoTree, hcopies'⟩ := @exists_toTree w₂ ⟨root, .owned⟩ _ _ hlays'
    rw [htoTree] at hwith
    cases hwith
    obtain ⟨r', rfl, hroot'⟩ := hcopies'.lays.exists_isMapping hkind
    exact ⟨(OneShot.extends_of_copies hcopies hchange).trans hcopies'.extends_, r', t', rfl, hroot',
      ⟨rs₃, hcopies'.lays⟩, hat.congr fun _ ↦ .of_extends hcopies'.extends_⟩

end Assert

/-- Assumes: a mapping that is laid out as a tree, as every mapping is that reaches no cycle and no
missing reference. What a copying write gives passes the assertion of the value written, by the path of
the write with an index for every item that was appended, and by the path itself if there is none, for
every value that is laid out as a tree, too. Where a path leads to a slot, the assertion of a deep copy
of what is read there holds. And the deep copy of whatever is laid out as a tree is equal to it. All
this is for values that are not not-a-number; what they hold may be. -/
theorem assertions_hold (config : Config) (path : String) {w : Workplace} {root : Ref} {t : Tree}
    (hroot : w.heap.IsMapping root) (htree : w.heap.Shows (.object root) t) :
    (∀ v tv path' copy w', w.heap.Shows v tv → ¬ w.heap.IsNotNumber v →
      w.heap.ReadsBack root path path' →
      OneShot.withValue config (.object root) path v w = .ok copy w' →
      ∃ w'', assertValue copy path' v w' = .ok () w'') ∧
    (∀ x w₁ w₂, has root path w = .ok true w₁ → get root path w₁ = .ok x w₂ →
      ¬ w.heap.IsNotNumber x → ∃ copy w₃ w₄, clone x w₂ = .ok copy w₃ ∧
        assertValue (.object root) path copy w₃ = .ok () w₄) ∧
    ∀ x tx, w.heap.Shows x tx → ¬ w.heap.IsNotNumber x →
      ∃ copy w', clone x w = .ok copy w' ∧ w'.heap.equal copy x = true := by
  refine ⟨fun v tv path' copy w' hv hnumber hpath hwith ↦ ?_, fun x w₁ w₂ hhas hget hnumber ↦ ?_,
    fun x tx hx hnumber ↦ ?_⟩
  · obtain ⟨hext, r', t', rfl, hroot', hshows', hat⟩ :=
      exists_showsAt_of_withValue hroot htree hv hpath hwith
    exact assertValue_of_showsAt hroot' hshows' hat fun hv' ↦ hnumber (hv'.of_extends hext hv)
  · have hhas' := (follows_has.steady root path).effect_of_ok hhas
    have hheap : w₁.heap = w.heap := by rw [← follows_has.effect_snd root path w.heap, hhas']
    have hget' := (follows_get.steady root path).effect_of_ok hget
    have hheap' : w₂.heap = w.heap := by
      rw [← hheap, ← follows_get.effect_snd root path w₁.heap, hget']
    rw [hheap] at hget'
    have hat := showsAt_of_scans hroot htree (congrArg Prod.fst hhas') (congrArg Prod.fst hget')
    rw [← hheap'] at hroot htree hat hnumber
    exact exists_assertValue_of_clone hroot htree hat hnumber
  · obtain ⟨copy, w', rs, hclone, hcopies⟩ := exists_clone_copies hx
    refine ⟨copy, w', hclone, ?_⟩
    exact equal_of_shows ⟨rs, hcopies.lays⟩ (hx.of_extends hcopies.extends_) fun hcopy ↦
      hnumber (hcopy.of_copies hcopies hx)

/-- A mapping is appended to a list of an ordered mapping: in the copy it passes the assertion behind
the item that was there. Copies of the list and of a read-only mapping pass for what was copied. -/
theorem assertions_hold_appended :
    let w : Workplace := ⟨⟨#[.list [.integer 3], .mapping .ordered (.ofList [(.text "a", .object 0)]),
      .mapping .readOnly (.ofList [(.text "k", .integer 1)])]⟩, .new 0, #[]⟩
    w.heap.IsMapping 1 ∧ w.heap.ReadsBack 1 "a[]" "a[1]" ∧
      (∃ copy w', OneShot.withValue {} (.object 1) "a[]" (.object 2) w = .ok copy w' ∧
        ∃ w'', assertValue copy "a[1]" (.object 2) w' = .ok () w'') ∧
      (∃ w₁ w₂ copy w₃ w₄, has 1 "a" w = .ok true w₁ ∧ get 1 "a" w₁ = .ok (.object 0) w₂ ∧
        clone (.object 0) w₂ = .ok copy w₃ ∧ assertValue (.object 1) "a" copy w₃ = .ok () w₄) ∧
      ∃ copy w', clone (.object 2) w = .ok copy w' ∧ w'.heap.equal copy (.object 2) = true := by
  intro w
  have hroot : w.heap.IsMapping 1 := ⟨_, _, rfl⟩
  have hlist : w.heap.Lays [.object 0] [.list [.leaf (.integer 3)]] [0] :=
    lays_node rfl .list (lays_leaf (isLeaf_of_ref?_eq_none rfl))
  have htree : w.heap.Shows (.object 1) (.mapping [(.text "a", .list [.leaf (.integer 3)])]) :=
    ⟨[1, 0], lays_node rfl (.mapping rfl) hlist⟩
  have hv : w.heap.Shows (.object 2) (.mapping [(.text "k", .leaf (.integer 1))]) :=
    ⟨[2], lays_node rfl (.mapping rfl) (lays_leaf (isLeaf_of_ref?_eq_none rfl))⟩
  have hnumber : ∀ r < 3, ¬ w.heap.IsNotNumber (.object r) := by
    rintro r hr ⟨x, hx, hget⟩
    obtain rfl := Value.object.inj hx
    match r, hr with
    | 0, _ | 1, _ | 2, _ => cases hget
  have hnumbered : w.heap.numbered 1 "a[]" = "a[1]" := by decide +kernel
  have hpath : w.heap.ReadsBack 1 "a[]" "a[1]" := by
    rw [← hnumbered]
    exact .numbered (by decide +kernel)
  have hstep : Step.decode "a[]" = .ok ⟨"a[]", "a", .every, none⟩ := by decide +kernel
  have hlast : Step.decode "a" = .ok ⟨"a", "a", .key, none⟩ := by decide +kernel
  have hwith : ∃ copy w', OneShot.withValue {} (.object 1) "a[]" (.object 2) w = .ok copy w' := by
    let h₁ := (w.heap.alloc (.list [.integer 3])).alloc
      (.mapping .plain (.ofList [(.text "a", .object 3)]))
    have hown : own (.object 1) { w with parser := w.parser.fresh 256 } =
        .ok ⟨4, .owned⟩ { w with parser := w.parser.fresh 256, heap := h₁ } := rfl
    have heffect : ∃ h₂, (set none 4 "a[]" (.object 2)).effect h₁ = (.ok (), h₂) ∧
        ∃ copy h₃, h₂.clone? (.object 4) = some (copy, h₃) := by
      rw [effect_set_of_last hstep rfl]
      exact ⟨_, rfl, _, _, rfl⟩
    obtain ⟨h₂, heffect, copy, h₃, hclone⟩ := heffect
    obtain ⟨w₁, hset, rfl⟩ := (steady_set none 4 "a[]" (.object 2)).exists_of_effect
      (w := { w with parser := w.parser.fresh 256, heap := h₁ }) heffect
    refine ⟨copy, { w₁ with heap := h₃, parser := w.parser }, ?_⟩
    have htoTree : toTree ⟨4, .owned⟩ w₁ = .ok copy { w₁ with heap := h₃ } := by
      rw [toTree, clone, hclone]
    simp only [OneShot.withValue, afresh, bind, EStateM.bind, hown, hset, htoTree]
  have hfinds : w.heap.Finds 1 (Path.slots "a") (.object 0) := by
    rw [Path.slots_of_last hlast rfl]
    exact .here rfl
  obtain ⟨hread, hfound⟩ := effect_of_finds (Path.readable_of_last hlast rfl) hfinds
  obtain ⟨w₁, hhas, hheap⟩ := (follows_has.steady 1 "a").exists_of_effect hfound
  rw [← hheap] at hread
  obtain ⟨w₂, hget, -⟩ := (follows_get.steady 1 "a").exists_of_effect hread
  obtain ⟨hwritten, hcopied, hequal⟩ := assertions_hold {} "a[]" hroot htree
  obtain ⟨copy, w', hwith⟩ := hwith
  refine ⟨hroot, hpath, ⟨copy, w', hwith, hwritten _ _ _ _ _ hv (hnumber 2 (by decide)) hpath hwith⟩,
    ?_, hequal _ _ hv (hnumber 2 (by decide))⟩
  obtain ⟨copied, w₃, w₄, hclone, hasserts⟩ :=
    (assertions_hold {} "a" hroot htree).2.1 _ _ _ hhas hget
      (hnumber 0 (by decide))
  exact ⟨w₁, w₂, copied, w₃, w₄, hhas, hget, hclone, hasserts⟩

end DottedPath
