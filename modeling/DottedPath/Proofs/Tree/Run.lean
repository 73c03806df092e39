import DottedPath.Proofs.Tree.Remove
import DottedPath.Proofs.Tree.Scanner

/-!
# Runs of a scanner and of a tree

A scanner that owns its root answers every call as a tree would that is never changed but replaced,
call by call, by the tree that `Tree.get`, `Tree.has`, `Tree.set` and `Tree.remove` give
(`answers_of_run`). The invariant that carries this through a run is that the root owns the tree:
each call answers as it should and leaves it in force (`step_call`), and what happens elsewhere in
the heap between two calls does not touch it (`Owns.of_reaches`).
-/

set_option autoImplicit false
set_option relaxedAutoImplicit false

namespace DottedPath

/-- A call of a scanner, with the value to be written if there is one. -/
inductive Call (α : Type)
  | get (path : String)
  | has (path : String)
  | set (path : String) (v : α)
  | remove (path : String)
  | toTree

/-- What a call ends with when it meets no fault. -/
inductive Gain (α : Type)
  | value (a : α)
  | truth (b : Bool)
  | nothing

/-- The numerals in the path have few enough digits, and its indices are below `2 ^ 60`, up to which
a list can be padded. -/
def Path.Moderate (path : String) : Prop :=
  Path.Readable path ∧ ∀ hop ∈ Path.hops path, ∀ n, hop.place = .item n → n < Heap.tooMuchPadding

namespace Call

/-- The work of a call. -/
def run (limit : Option Nat) (scanner : Scanner) : Call Value → Scan (Gain Value)
  | get path => do return .value (← Scan.get scanner.root path)
  | has path => do return .truth (← Scan.has scanner.root path)
  | set path v => do
    Scan.set limit scanner.root path v
    return .nothing
  | remove path => do
    Scan.remove scanner.root path
    return .nothing
  | toTree => do return .value (← Scan.toTree scanner)

/-- What a call comes to for a tree, and the tree that takes its place. -/
def onTree (limit : Option Nat) : Call Tree → Tree → Except TreeFault (Gain Tree) × Tree
  | get path, t => ((Tree.get (Path.hops path) t).map .value, t)
  | has path, t => ((Tree.has (Path.hops path) t).map .truth, t)
  | set path v, t =>
    match Tree.set limit v (Path.hops path) t with
    | .ok t' => (.ok .nothing, t')
    | .error fault => (.error fault, t)
  | remove path, t =>
    match Tree.remove (Path.hops path) t with
    | (t', none) => (.ok .nothing, t')
    | (t', some fault) => (.error fault, t')
  | toTree, t => (.ok (.value t), t)

/-- The two calls are the same, on a moderate path, and a value to be written owns the tree to be
written, in containers that are not reached from the root. -/
inductive Fits (h : Heap) (root : Ref) : Call Value → Call Tree → Prop
  | get {path : String} (hpath : Path.Moderate path) : Fits h root (.get path) (.get path)
  | has {path : String} (hpath : Path.Moderate path) : Fits h root (.has path) (.has path)
  | set {path : String} {v : Value} {tv : Tree} {rs : List Ref} (hpath : Path.Moderate path)
    (hv : h.Owns v tv rs) (hapart : ∀ x ∈ rs, ¬ Relation.ReflTransGen h.Holds root x) :
    Fits h root (.set path v) (.set path tv)
  | remove {path : String} (hpath : Path.Moderate path) : Fits h root (.remove path) (.remove path)
  | toTree : Fits h root .toTree .toTree

end Call

/-- What a value or a truth in a heap means. -/
inductive Gain.Means (h : Heap) : Gain Value → Gain Tree → Prop
  | value {v : Value} {t : Tree} (hshows : h.Shows v t) : Means h (.value v) (.value t)
  | truth {b : Bool} : Means h (.truth b) (.truth b)
  | nothing : Means h .nothing .nothing

/-- The trees that calls leave behind them, one after the other, and what each comes to. -/
def Tree.answers (limit : Option Nat) : List (Call Tree) → Tree →
    List (Except TreeFault (Gain Tree)) × Tree
  | [], t => ([], t)
  | call :: calls, t =>
    let step := call.onTree limit t
    (step.1 :: (answers limit calls step.2).1, (answers limit calls step.2).2)

/-- A call that was made, the same call for a tree, and what came of it, with the heap by then. -/
structure Exchange where
  call : Call Value
  asked : Call Tree
  result : Except Fault (Gain Value) × Heap

/-- The calls of a scanner in a run, in which others may do between two calls what they want with
whatever the root does not reach. -/
inductive Scanner.Run (limit : Option Nat) (scanner : Scanner) :
    Workplace → List Exchange → Workplace → Prop
  | stop (w : Workplace) : Run limit scanner w [] w
  | call {w w' : Workplace} {call : Call Value} {asked : Call Tree} {exchanges : List Exchange}
    (hfits : call.Fits w.heap scanner.root asked)
    (hrest : Run limit scanner (Scan.after (call.run limit scanner w)) exchanges w') :
    Run limit scanner w (⟨call, asked, Scan.outcome (call.run limit scanner w)⟩ :: exchanges) w'
  | others {w w₁ w' : Workplace} {exchanges : List Exchange}
    (hsame : ∀ x c, Relation.ReflTransGen w.heap.Holds scanner.root x → w.heap.get? x = some c →
      w₁.heap.get? x = some c)
    (hrest : Run limit scanner w₁ exchanges w') : Run limit scanner w exchanges w'

/-- What came of a call means what it comes to for the tree. -/
def Exchange.Means (exchange : Exchange) (answer : Except TreeFault (Gain Tree)) : Prop :=
  exchange.result.2.Agrees (Gain.Means exchange.result.2) exchange.result.1 answer

namespace Heap

/-- The root of a scanner is a mapping that owns the tree. -/
structure Keeps (h : Heap) (root : Ref) (t : Tree) : Prop where
  isMapping : h.IsMapping root
  owns : ∃ rs, h.Owns (.object root) t rs

theorem Keeps.of_owns {h : Heap} {root : Ref} {t : Tree} {rs : List Ref}
    (howns : h.Owns (.object root) t rs) (hkind : t.kind = .mapping) : h.Keeps root t :=
  ⟨howns.lays.isMapping.mp hkind, rs, howns⟩

theorem Agrees.map {h : Heap} {α β γ δ : Type} {rel : α → β → Prop} {rel' : γ → δ → Prop}
    {x : Except Fault α} {y : Except TreeFault β} (hagrees : h.Agrees rel x y) {f : α → γ} {g : β → δ}
    (hmap : ∀ a b, rel a b → rel' (f a) (g b)) : h.Agrees rel' (x.map f) (y.map g) := by
  cases hagrees with
  | ok hrel => exact .ok (hmap _ _ hrel)
  | error htells => exact .error htells

end Heap

theorem Path.Moderate.small {path : String} (hpath : Moderate path) :
    ∀ s ∈ Path.slots path, s.Small := by
  intro s hs n hn
  subst hn
  obtain ⟨hop, hhop, hmem⟩ := List.mem_flatMap.mp hs
  refine hpath.2 hop hhop n ?_
  cases hplace : hop.place <;> simp [Hop.slots, hplace, Place.slot?] at hmem ⊢
  exact hmem.symm

namespace Scan

theorem effect_map {α β : Type} (work : Scan α) (f : α → β) (h : Heap) :
    (work >>= fun a ↦ pure (f a)).effect h = ((work.effect h).1.map f, (work.effect h).2) := by
  rw [effect_bind fun _ ↦ steady_pure _]
  obtain ⟨x, h'⟩ := work.effect h
  cases x <;> rfl

end Scan

namespace Call

theorem steady_run (limit : Option Nat) (scanner : Scanner) (call : Call Value) :
    Scan.Steady (call.run limit scanner) := by
  cases call with
  | get path => exact (Scan.follows_get.steady _ _).bind fun _ ↦ Scan.steady_pure _
  | has path => exact (Scan.follows_has.steady _ _).bind fun _ ↦ Scan.steady_pure _
  | set path v => exact (Scan.steady_set _ _ _ _).bind fun _ ↦ Scan.steady_pure _
  | remove path => exact (Scan.steady_remove _ _).bind fun _ ↦ Scan.steady_pure _
  | toTree => exact (Scan.steady_clone _).bind fun _ ↦ Scan.steady_pure _

section Step

variable {limit : Option Nat} {scanner : Scanner} {h : Heap} {t : Tree}

/-- What some work of the scanner comes to, and the heap that it leaves, are those of a tree and of
the tree that takes its place. -/
def Follows (scanner : Scanner) (x : Except Fault (Gain Value) × Heap)
    (y : Except TreeFault (Gain Tree) × Tree) : Prop :=
  x.2.Agrees (Gain.Means x.2) x.1 y.1 ∧ x.2.Keeps scanner.root y.2

theorem follows_get {path : String} (hpath : Path.Moderate path)
    (hkeeps : h.Keeps scanner.root t) :
    Follows scanner (((get path).run limit scanner).effect h) ((get path).onTree limit t) := by
  obtain ⟨rs, howns⟩ := hkeeps.owns
  have hagrees := Heap.agrees_get hpath.1 hkeeps.isMapping ⟨rs, howns.lays⟩
  have hheap := Scan.follows_get.effect_snd scanner.root path h
  rw [run, Scan.effect_map, Follows, hheap]
  exact ⟨hagrees.map fun _ _ ↦ .value, hkeeps⟩

theorem follows_has {path : String} (hpath : Path.Moderate path)
    (hkeeps : h.Keeps scanner.root t) :
    Follows scanner (((has path).run limit scanner).effect h) ((has path).onTree limit t) := by
  obtain ⟨rs, howns⟩ := hkeeps.owns
  have hagrees := Heap.agrees_has hpath.1 hkeeps.isMapping ⟨rs, howns.lays⟩
  have hheap := Scan.follows_has.effect_snd scanner.root path h
  rw [run, Scan.effect_map, Follows, hheap]
  refine ⟨hagrees.map fun b b' hb ↦ ?_, hkeeps⟩
  subst hb
  exact .truth

theorem follows_set {path : String} {v : Value} {tv : Tree} {rs : List Ref}
    (hpath : Path.Moderate path) (hkeeps : h.Keeps scanner.root t) (hv : h.Owns v tv rs)
    (hapart : ∀ x ∈ rs, ¬ Relation.ReflTransGen h.Holds scanner.root x) :
    Follows scanner (((set path v).run limit scanner).effect h) ((set path tv).onTree limit t) := by
  obtain ⟨ss, howns⟩ := hkeeps.owns
  have hdisjoint : ss.Disjoint rs := fun x hx hx' ↦ hapart x hx' (howns.lays.reaches_root hx)
  have hstores : h.Stores scanner.root ss rs ((Scan.set limit scanner.root path v).effect h)
      (Tree.set limit tv (Path.hops path) t) :=
    Heap.stores_set hpath.1 hpath.small howns hkeeps.isMapping hv hdisjoint
  rw [run, Scan.effect_map, onTree]
  generalize (Scan.set limit scanner.root path v).effect h = x at hstores ⊢
  cases htree : Tree.set limit tv (Path.hops path) t with
  | ok t' =>
    rw [htree] at hstores
    cases hstores with
    | ok howns' _ _ =>
      have hkind : t'.kind = .mapping :=
        (Tree.kind_set htree).trans (howns.lays.isMapping.mpr hkeeps.isMapping)
      exact ⟨.ok .nothing, .of_owns howns' hkind⟩
  | error fault =>
    rw [htree] at hstores
    cases hstores with
    | error htells hext =>
      exact ⟨.error htells, .of_owns (howns.of_extends hext)
        (howns.lays.isMapping.mpr hkeeps.isMapping)⟩

theorem follows_remove {path : String} (hpath : Path.Moderate path)
    (hkeeps : h.Keeps scanner.root t) :
    Follows scanner (((remove path).run limit scanner).effect h) ((remove path).onTree limit t) := by
  obtain ⟨rs, howns⟩ := hkeeps.owns
  obtain ⟨⟨rs', -, howns'⟩, -, hstops⟩ := Heap.prunes_remove hpath.1 howns hkeeps.isMapping
  have hkind := (Tree.kind_remove (Path.hops path) t).trans
    (howns.lays.isMapping.mpr hkeeps.isMapping)
  have hkeeps' := Heap.Keeps.of_owns howns' hkind
  rw [run, Scan.effect_map, onTree]
  generalize (Scan.remove scanner.root path).effect h = x at hstops hkeeps' ⊢
  generalize Tree.remove (Path.hops path) t = y at hstops hkeeps' ⊢
  obtain ⟨x, h'⟩ := x
  obtain ⟨t', y⟩ := y
  cases hstops with
  | ok => exact ⟨.ok .nothing, hkeeps'⟩
  | error htells => exact ⟨.error htells, hkeeps'⟩

theorem follows_toTree (hkeeps : h.Keeps scanner.root t) :
    Follows scanner ((toTree.run limit scanner).effect h) (toTree.onTree limit t) := by
  obtain ⟨rs, howns⟩ := hkeeps.owns
  obtain ⟨copy, h', ss, hclone, hcopies⟩ := Heap.exists_clone howns.lays
  have heffect : (Scan.toTree scanner).effect h = (.ok copy, h') := by
    rw [Scan.toTree, Scan.effect_clone, hclone]
  rw [run, Scan.effect_map, heffect]
  exact ⟨.ok (.value ⟨ss, hcopies.lays⟩), .of_owns (howns.of_extends hcopies.extends_)
    (howns.lays.isMapping.mpr hkeeps.isMapping)⟩

/-- What a call of a scanner does is what the same call does to the tree that its root owns. -/
theorem follows_run {call : Call Value} {asked : Call Tree} (hfits : call.Fits h scanner.root asked)
    (hkeeps : h.Keeps scanner.root t) :
    Follows scanner ((call.run limit scanner).effect h) (asked.onTree limit t) := by
  cases hfits with
  | get hpath => exact follows_get hpath hkeeps
  | has hpath => exact follows_has hpath hkeeps
  | set hpath hv hapart => exact follows_set hpath hkeeps hv hapart
  | remove hpath => exact follows_remove hpath hkeeps
  | toTree => exact follows_toTree hkeeps

end Step

end Call

/-! ### Runs -/

section Runs

variable {limit : Option Nat} {scanner : Scanner} {w w' : Workplace} {t : Tree}

/-- A call is answered as by the tree, and leaves the root with the tree that takes its place. -/
theorem step_call {call : Call Value} {asked : Call Tree}
    (hfits : call.Fits w.heap scanner.root asked) (hkeeps : w.heap.Keeps scanner.root t) :
    Exchange.Means ⟨call, asked, Scan.outcome (call.run limit scanner w)⟩ (asked.onTree limit t).1 ∧
      (Scan.after (call.run limit scanner w)).heap.Keeps scanner.root (asked.onTree limit t).2 := by
  rw [Exchange.Means, Scan.heap_after, call.steady_run limit scanner w]
  exact Call.follows_run hfits hkeeps

/-- In a run of a root with a tree, every call is answered as by the tree of its time, and the root
ends up with the last tree. -/
theorem Scanner.Run.means {exchanges : List Exchange} (hrun : scanner.Run limit w exchanges w')
    (hkeeps : w.heap.Keeps scanner.root t) :
    List.Forall₂ Exchange.Means exchanges (Tree.answers limit (exchanges.map Exchange.asked) t).1 ∧
      w'.heap.Keeps scanner.root (Tree.answers limit (exchanges.map Exchange.asked) t).2 := by
  induction hrun generalizing t with
  | stop w => exact ⟨.nil, hkeeps⟩
  | call hfits _ ih =>
    obtain ⟨hmeans, hkeeps'⟩ := step_call hfits hkeeps
    obtain ⟨hrest, hlast⟩ := ih hkeeps'
    exact ⟨.cons hmeans hrest, hlast⟩
  | others hsame _ ih =>
    obtain ⟨⟨kind, entries, hget⟩, rs, howns⟩ := hkeeps
    exact ih ⟨⟨kind, entries, hsame _ _ .refl hget⟩, rs, howns.of_reaches hsame⟩

/-- Assumes: data that are null or a mapping that the heap lays out as a tree. They can be given to a
scanner of its own. In every run of this scanner, each call comes to what it comes to for the tree
that the calls before it have left: the same value, truth or fault; and in the end the root owns the
tree that the last call has left. -/
theorem answers_of_run {data : Value} (hdata : w.heap.Starts data t) :
    ∃ scanner w₀, Scan.own data w = .ok scanner w₀ ∧
      ∀ exchanges w', Scanner.Run limit scanner w₀ exchanges w' →
        List.Forall₂ Exchange.Means exchanges
            (Tree.answers limit (exchanges.map Exchange.asked) t).1 ∧
          ∃ rs, w'.heap.Owns (.object scanner.root)
            (Tree.answers limit (exchanges.map Exchange.asked) t).2 rs := by
  obtain ⟨scanner, w₀, ss, hown, hcopies⟩ := Scan.exists_own hdata
  have hkeeps := Heap.Keeps.of_owns hcopies.owns hdata.kind
  refine ⟨scanner, w₀, hown, fun exchanges w' hrun ↦ ?_⟩
  obtain ⟨hmeans, hlast⟩ := hrun.means hkeeps
  exact ⟨hmeans, hlast.owns⟩

/-- Data with a list under `a` are kept as they are read back, with the padding of a write behind the
end of the list. -/
theorem answers_of_run_padded :
    let w : Workplace :=
      ⟨⟨#[.list [.integer 3], .mapping .ordered (.ofList [(.text "a", .object 0)])]⟩, .new 0, #[]⟩
    let t : Tree := .mapping [(.text "a", .list [.leaf (.integer 3)])]
    w.heap.Starts (.object 1) t ∧ ∃ scanner w₀ exchanges w',
      Scan.own (.object 1) w = .ok scanner w₀ ∧ Scanner.Run none scanner w₀ exchanges w' ∧
        List.Forall₂ Exchange.Means exchanges [.ok .nothing,
          .ok (.value (.list [.leaf (.integer 3), .null, .leaf (.integer 5)]))] := by
  intro w t
  have hdata : w.heap.Starts (.object 1) t := by
    refine .mapping ⟨_, _, rfl⟩ ⟨[1, 0], Heap.lays_node rfl (.mapping rfl) ?_⟩
    refine Heap.lays_node rfl .list (Heap.lays_leaf ?_)
    exact Heap.isLeaf_of_ref?_eq_none rfl
  obtain ⟨scanner, w₀, hown, hanswers⟩ := @answers_of_run none _ _ _ hdata
  have hset : Path.hops "a[2]" = [⟨"a", .item 2⟩] := by decide +kernel
  have hget : Path.hops "a" = [⟨"a", .key⟩] := by decide +kernel
  have hfive : w₀.heap.Owns (.integer 5) (.leaf (.integer 5)) [] :=
    ⟨Heap.lays_leaf (Heap.isLeaf_of_ref?_eq_none rfl), .nil, by simp [Heap.Plain]⟩
  have hrun : scanner.Run none w₀ [⟨.set "a[2]" (.integer 5), .set "a[2]" (.leaf (.integer 5)), _⟩,
      ⟨.get "a", .get "a", _⟩] _ :=
    .call (.set ⟨by decide +kernel, by simp [hset, Heap.tooMuchPadding]⟩ hfive (by simp))
      (.call (.get ⟨by decide +kernel, by simp [hget]⟩) (.stop _))
  refine ⟨hdata, scanner, w₀, _, _, hown, hrun, ?_⟩
  have hmeans := (hanswers _ _ hrun).1
  simp only [List.map, Tree.answers, Call.onTree, hset, hget] at hmeans
  exact hmeans

end Runs

end DottedPath
