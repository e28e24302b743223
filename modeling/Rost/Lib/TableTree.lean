import Mathlib.Algebra.Order.Ring.Nat
import Mathlib.Data.List.Basic
import Mathlib.Data.List.Infix

/-!
# Trees of tables

A heap of tables that point to each other: `h l f j` is what the slot `j` of table `f` holds when it is read on level
`l`, and `resolve` follows a path of slots from a table down to a leaf.  Several trees live in one heap.  A `Layout`
assigns to every table its owner, named by the root of the owner's tree, and the path on which the owner reaches it.
The tree of one owner, `kern`, may be shared: a table of another owner may point to the table of `kern` on the same
path, in the slots that `share` allows.

So a table is reached by its owner on one path only, and by other owners only if it belongs to `kern`.  Two rules
follow.  A change of the tables of one owner changes nothing for the others (`Layout.resolve_congr`), and for the owner
it changes only the paths that lead through the changed slot (`Layout.resolve_change`).  The layout is kept when a table
is added behind a slot (`Layout.adopt`), a new root is made (`Layout.addRoot`), a slot of the lowest level is written
(`Layout.writeLowest`), `kern` fills an empty slot (`Layout.fill`), entries of `kern` are copied (`Layout.copy`) and a
tree is given up (`Layout.dropOwner`).  A tree in which no table is reached on two paths is a layout
(`layout_pathTag`).
-/

namespace Rost.Lib

/-- What a slot of a table holds. -/
inductive Link (F V : Type) where
  | none
  | leaf (v : V)
  | table (f : F)

/-- The slots by level, table and index. -/
abbrev Heap (F I V : Type) := Nat → F → I → Link F V

namespace TableTree

variable {F I V : Type}

/-- Follow a path of slots from the table `f`; the level of a slot is the number of slots still to come. -/
def resolve (h : Heap F I V) : List I → F → Option (Nat × V)
  | [], _ => none
  | i :: is, f =>
    match h is.length f i with
    | .none => none
    | .leaf v => some (is.length, v)
    | .table g => resolve h is g

/-- The table behind a path of slots from the table `f` on level `l`. -/
def descend (h : Heap F I V) : List I → Nat → F → Option F
  | [], _, f => some f
  | i :: is, l, f =>
    match h l f i with
    | .table g => descend h is (l - 1) g
    | _ => none

theorem descend_append (h : Heap F I V) (is js : List I) (l : Nat) (f : F) :
    descend h (is ++ js) l f = (descend h is l f).bind fun g => descend h js (l - is.length) g := by
  induction is generalizing l f with
  | nil => rfl
  | cons i is ih =>
    simp only [List.cons_append, descend]
    cases h l f i with
    | none => rfl
    | leaf v => rfl
    | table g =>
      simp only
      rw [ih, List.length_cons, Nat.add_comm, ← Nat.sub_sub]

/-- A path may be resolved from a table on its way. -/
theorem resolve_of_descend {h : Heap F I V} {p is : List I} {l : Nat} (hlen : p.length + is.length = l + 1) {f g : F}
    (hg : descend h p l f = some g) : resolve h (p ++ is) f = resolve h is g := by
  induction p generalizing l f with
  | nil =>
    cases hg
    rfl
  | cons i p ih =>
    rw [List.length_cons] at hlen
    have hlevel : (p ++ is).length = l := by
      rw [List.length_append]
      omega
    unfold descend at hg
    split at hg
    · rename_i c hc
      have hstep : resolve h (i :: p ++ is) f = resolve h (p ++ is) c := by
        simp only [List.cons_append, resolve, hlevel, hc]
      rw [hstep]
      cases p with
      | nil =>
        cases hg
        rfl
      | cons j p =>
        rw [List.length_cons] at hlen
        exact ih (by rw [List.length_cons]; omega) hg
    · cases hg

/-- The owner of every table and the path on which the owner reaches it; `top` is the level of the roots. -/
structure Layout (h : Heap F I V) (kern : F) (share : List I → I → Prop) (top : Nat)
    (tag : F → Option (F × List I)) : Prop where
  kern_root : tag kern = some (kern, [])
  root : ∀ {f o}, tag f = some (o, []) → f = o
  depth : ∀ {f o p}, tag f = some (o, p) → p.length ≤ top
  parent : ∀ {f o p j}, tag f = some (o, p ++ [j]) → ∃ g, tag g = some (o, p) ∧ h (top - p.length) g j = .table f
  child : ∀ {f o p j c}, tag f = some (o, p) → h (top - p.length) f j = .table c →
    tag c = some (o, p ++ [j]) ∨ (o ≠ kern ∧ share p j ∧ tag c = some (kern, p ++ [j]))
  leaf : ∀ {f o p j v}, tag f = some (o, p) → o ≠ kern → p.length < top → h (top - p.length) f j = .leaf v →
    share p j ∧ ∃ g, tag g = some (kern, p) ∧ h (top - p.length) g j ≠ .none

namespace Layout

variable {h h' : Heap F I V} {kern : F} {share : List I → I → Prop} {top : Nat} {tag : F → Option (F × List I)}

/-- An owner has one table on a path. -/
theorem tag_inj (L : Layout h kern share top tag) {f g o : F} {p : List I} (hf : tag f = some (o, p))
    (hg : tag g = some (o, p)) : f = g := by
  induction p using List.reverseRecOn generalizing f g with
  | nil => rw [L.root hf, L.root hg]
  | append_singleton p j ih =>
    obtain ⟨f', hf', hlf⟩ := L.parent hf
    obtain ⟨g', hg', hlg⟩ := L.parent hg
    rw [ih hf' hg', hlg] at hlf
    exact (Link.table.inj hlf).symm

/-- The owner of a table is the root of its own tree. -/
theorem root_of_tag (L : Layout h kern share top tag) {f o : F} {p : List I} (hf : tag f = some (o, p)) :
    tag o = some (o, []) := by
  induction p using List.reverseRecOn generalizing f with
  | nil =>
    have hfo := L.root hf
    subst hfo
    exact hf
  | append_singleton p j ih =>
    obtain ⟨g, hg, -⟩ := L.parent hf
    exact ih hg

/-- A table is found on its path from the root of its owner. -/
theorem descend_of_tag (L : Layout h kern share top tag) {f o : F} {p : List I} (hf : tag f = some (o, p)) :
    descend h p top o = some f := by
  induction p using List.reverseRecOn generalizing f with
  | nil =>
    rw [L.root hf]
    rfl
  | append_singleton p j ih =>
    obtain ⟨g, hg, hlink⟩ := L.parent hf
    rw [descend_append, ih hg, Option.bind_some]
    unfold descend
    rw [hlink]
    rfl

/-- There is no table below the lowest level. -/
theorem not_table (L : Layout h kern share top tag) {f o c : F} {p : List I} {j : I} (hf : tag f = some (o, p))
    (hp : p.length = top) : h (top - p.length) f j ≠ .table c := by
  intro hc
  have hlen : (p ++ [j]).length ≤ top := by
    rcases L.child hf hc with hown | ⟨-, -, hkern⟩
    · exact L.depth hown
    · exact L.depth hkern
  rw [List.length_append, List.length_singleton] at hlen
  omega

/-- Where `kern` has nothing, a slot of another owner holds nothing or a table of its own. -/
theorem own_of_clean (L : Layout h kern share top tag) {f o : F} {p : List I} {j : I} (hf : tag f = some (o, p))
    (ho : o ≠ kern) (hp : p.length < top)
    (hclean : share p j → ∀ g, tag g = some (kern, p) → h (top - p.length) g j = .none) :
    h (top - p.length) f j = .none ∨
      ∃ c, h (top - p.length) f j = .table c ∧ tag c = some (o, p ++ [j]) := by
  cases hs : h (top - p.length) f j with
  | none => exact Or.inl rfl
  | leaf v =>
    obtain ⟨hshare, g, hg, hne⟩ := L.leaf hf ho hp hs
    exact absurd (hclean hshare g hg) hne
  | table c =>
    rcases L.child hf hs with hown | ⟨-, hshare, hkern⟩
    · exact Or.inr ⟨c, rfl, hown⟩
    · obtain ⟨g, hg, hlink⟩ := L.parent hkern
      rw [hclean hshare g hg] at hlink
      cases hlink

/-! ### What a change of the heap does to `resolve` -/

/-- If the tables of `R` and of `kern` are unchanged, then `R` reaches what it reached. -/
theorem resolve_congr (L : Layout h kern share top tag) {R : F}
    (hsame : ∀ f o p, tag f = some (o, p) → o = R ∨ o = kern → ∀ j, h' (top - p.length) f j = h (top - p.length) f j)
    {f o : F} {p is : List I} (hf : tag f = some (o, p)) (ho : o = R ∨ o = kern) (hlen : p.length + is.length = top + 1) :
    resolve h' is f = resolve h is f := by
  induction is generalizing f o p with
  | nil => rfl
  | cons i is ih =>
    rw [List.length_cons] at hlen
    have hlevel : is.length = top - p.length := by omega
    unfold resolve
    rw [hlevel, hsame f o p hf ho i]
    cases hs : h (top - p.length) f i with
    | none => rfl
    | leaf v => rfl
    | table c =>
      have hlen' : (p ++ [i]).length + is.length = top + 1 := by
        rw [List.length_append, List.length_singleton]
        omega
      rcases L.child hf hs with hown | ⟨-, -, hkern⟩
      · exact ih hown ho hlen'
      · exact ih hkern (Or.inr rfl) hlen'

/-- If the slots `S` have changed, then a path that leads through one of them decides by what it reaches from there; `g`
is what is observed of it. -/
theorem map_resolve_change {W : Type} (g : Nat × V → W) (L : Layout h kern share top tag) {S : F → I → Prop} {ps : List I}
    (hsame : ∀ f o p, tag f = some (o, p) → ∀ j, ¬ S f j → h' (top - p.length) f j = h (top - p.length) f j)
    (hslot : ∀ f o p j is, tag f = some (o, p) → S f j → p ++ j :: is = ps →
      (resolve h' (j :: is) f).map g = (resolve h (j :: is) f).map g)
    {f o : F} {p is : List I} (hf : tag f = some (o, p)) (hps : p ++ is = ps) (hlen : ps.length = top + 1) :
    (resolve h' is f).map g = (resolve h is f).map g := by
  induction is generalizing f o p with
  | nil => rfl
  | cons i is ih =>
    by_cases hhere : S f i
    · exact hslot f o p i is hf hhere hps
    · have hlevel : is.length = top - p.length := by
        rw [← hps, List.length_append, List.length_cons] at hlen
        omega
      unfold resolve
      rw [hlevel, hsame f o p hf i hhere]
      cases hs : h (top - p.length) f i with
      | none => rfl
      | leaf v => rfl
      | table c =>
        have hps' : (p ++ [i]) ++ is = ps := by rw [List.append_assoc]; exact hps
        rcases L.child hf hs with hown | ⟨-, -, hkern⟩
        · exact ih hown hps'
        · exact ih hkern hps'

theorem resolve_change (L : Layout h kern share top tag) {S : F → I → Prop} {ps : List I}
    (hsame : ∀ f o p, tag f = some (o, p) → ∀ j, ¬ S f j → h' (top - p.length) f j = h (top - p.length) f j)
    (hslot : ∀ f o p j is, tag f = some (o, p) → S f j → p ++ j :: is = ps →
      resolve h' (j :: is) f = resolve h (j :: is) f)
    {f o : F} {p is : List I} (hf : tag f = some (o, p)) (hps : p ++ is = ps) (hlen : ps.length = top + 1) :
    resolve h' is f = resolve h is f := by
  have hmap := L.map_resolve_change id hsame
    (fun f o p j is hf hS hjs => congrArg (Option.map id) (hslot f o p j is hf hS hjs)) hf hps hlen
  rwa [Option.map_id, id, id] at hmap

/-- An empty table behind an empty slot changes nothing. -/
theorem resolve_adopt (L : Layout h kern share top tag) {f₀ o₀ c : F} {p₀ : List I} {i₀ : I}
    (hf₀ : tag f₀ = some (o₀, p₀)) (hnone : h (top - p₀.length) f₀ i₀ = .none)
    (hlink : h' (top - p₀.length) f₀ i₀ = .table c) (hempty : ∀ j, h' (top - (p₀.length + 1)) c j = .none)
    (hsame : ∀ f o p, tag f = some (o, p) → ∀ j, ¬ (f = f₀ ∧ j = i₀) →
      h' (top - p.length) f j = h (top - p.length) f j)
    {f o : F} {p is : List I} (hf : tag f = some (o, p)) (hlen : p.length + is.length = top + 1) :
    resolve h' is f = resolve h is f := by
  refine L.resolve_change (S := fun f j => f = f₀ ∧ j = i₀) hsame ?_ hf rfl (by rw [List.length_append]; exact hlen)
  rintro g q p' j js hg ⟨rfl, rfl⟩ hjs
  rw [hf₀] at hg
  cases hg
  have hlevel : js.length = top - p₀.length := by
    have := congrArg List.length hjs
    rw [List.length_append, List.length_append, List.length_cons] at this
    omega
  unfold resolve
  rw [hlevel, hnone, hlink]
  simp only
  cases js with
  | nil => rfl
  | cons j js =>
    have hnext : js.length = top - (p₀.length + 1) := by
      rw [List.length_cons] at hlevel
      omega
    unfold resolve
    rw [hnext, hempty j]

/-! ### Changes that keep the layout -/

/-- The heap has not changed where it matters. -/
theorem congr (L : Layout h kern share top tag)
    (hsame : ∀ f o p, tag f = some (o, p) → ∀ j, h' (top - p.length) f j = h (top - p.length) f j) :
    Layout h' kern share top tag where
  kern_root := L.kern_root
  root := L.root
  depth := L.depth
  parent hf := by
    obtain ⟨g, hg, hlink⟩ := L.parent hf
    exact ⟨g, hg, by rw [hsame g _ _ hg]; exact hlink⟩
  child hf hc := by
    rw [hsame _ _ _ hf] at hc
    exact L.child hf hc
  leaf hf ho hp hv := by
    rw [hsame _ _ _ hf] at hv
    obtain ⟨hshare, g, hg, hne⟩ := L.leaf hf ho hp hv
    exact ⟨hshare, g, hg, by rw [hsame g _ _ hg]; exact hne⟩

/-- A slot of the lowest level gets a leaf, or loses it. -/
theorem writeLowest (L : Layout h kern share top tag) {f₀ o₀ : F} {p₀ : List I} {i₀ : I}
    (hf₀ : tag f₀ = some (o₀, p₀)) (hp₀ : p₀.length = top) (hnot : ∀ c, h' 0 f₀ i₀ ≠ .table c)
    (hsame : ∀ f o p, tag f = some (o, p) → ∀ j, ¬ (f = f₀ ∧ j = i₀) →
      h' (top - p.length) f j = h (top - p.length) f j) : Layout h' kern share top tag where
  kern_root := L.kern_root
  root := L.root
  depth := L.depth
  parent {f o p j} hf := by
    obtain ⟨g, hg, hlink⟩ := L.parent hf
    refine ⟨g, hg, ?_⟩
    rw [hsame g o p hg]
    · exact hlink
    · rintro ⟨rfl, rfl⟩
      rw [hf₀] at hg
      cases hg
      exact L.not_table hf₀ hp₀ hlink
  child {f o p j c} hf hc := by
    by_cases hhere : f = f₀ ∧ j = i₀
    · obtain ⟨rfl, rfl⟩ := hhere
      rw [hf₀] at hf
      cases hf
      rw [hp₀, Nat.sub_self] at hc
      exact absurd hc (hnot c)
    · rw [hsame f o p hf j hhere] at hc
      exact L.child hf hc
  leaf {f o p j v} hf ho hp hv := by
    have hne : ∀ {g q}, tag g = some (q, p) → ¬ (g = f₀ ∧ j = i₀) := by
      rintro g q hg ⟨rfl, -⟩
      rw [hf₀] at hg
      cases hg
      omega
    rw [hsame f o p hf j (hne hf)] at hv
    obtain ⟨hshare, g, hg, hg'⟩ := L.leaf hf ho hp hv
    exact ⟨hshare, g, hg, by rw [hsame g kern p hg j (hne hg)]; exact hg'⟩

/-- An empty slot of `kern` gets a leaf. -/
theorem fill (L : Layout h kern share top tag) {f₀ : F} {p₀ : List I} {i₀ : I} (hf₀ : tag f₀ = some (kern, p₀))
    (hslot : h (top - p₀.length) f₀ i₀ = .none) (hnot : ∀ c, h' (top - p₀.length) f₀ i₀ ≠ .table c)
    (hsame : ∀ f o p, tag f = some (o, p) → ∀ j, ¬ (f = f₀ ∧ j = i₀) →
      h' (top - p.length) f j = h (top - p.length) f j) : Layout h' kern share top tag where
  kern_root := L.kern_root
  root := L.root
  depth := L.depth
  parent {f o p j} hf := by
    obtain ⟨g, hg, hlink⟩ := L.parent hf
    refine ⟨g, hg, ?_⟩
    rw [hsame g o p hg]
    · exact hlink
    · rintro ⟨rfl, rfl⟩
      rw [hf₀] at hg
      cases hg
      rw [hslot] at hlink
      cases hlink
  child {f o p j c} hf hc := by
    by_cases hhere : f = f₀ ∧ j = i₀
    · obtain ⟨rfl, rfl⟩ := hhere
      rw [hf₀] at hf
      cases hf
      exact absurd hc (hnot c)
    · rw [hsame f o p hf j hhere] at hc
      exact L.child hf hc
  leaf {f o p j v} hf ho hp hv := by
    have hhere : ¬ (f = f₀ ∧ j = i₀) := by
      rintro ⟨rfl, -⟩
      rw [hf₀] at hf
      cases hf
      exact ho rfl
    rw [hsame f o p hf j hhere] at hv
    obtain ⟨hshare, g, hg, hne⟩ := L.leaf hf ho hp hv
    refine ⟨hshare, g, hg, ?_⟩
    rw [hsame g kern p hg]
    · exact hne
    · rintro ⟨rfl, rfl⟩
      rw [hf₀] at hg
      cases hg
      exact hne hslot

variable [DecidableEq F]

/-- The tags after the table `c` has got a tag. -/
def setTag (tag : F → Option (F × List I)) (c : F) (t : F × List I) : F → Option (F × List I) :=
  fun f => if f = c then some t else tag f

theorem setTag_self (tag : F → Option (F × List I)) (c : F) (t : F × List I) : setTag tag c t c = some t := by
  unfold setTag
  rw [if_pos rfl]

theorem setTag_of_ne {tag : F → Option (F × List I)} {c f : F} (t : F × List I) (h : f ≠ c) :
    setTag tag c t f = tag f := by
  unfold setTag
  rw [if_neg h]

/-- The tags that are there stay when an untagged table gets one. -/
theorem setTag_of_tagged {tag : F → Option (F × List I)} {c f : F} {s : F × List I} (t : F × List I)
    (hc : tag c = none) (hf : tag f = some s) : setTag tag c t f = some s := by
  rw [setTag_of_ne t, hf]
  rintro rfl
  rw [hc] at hf
  cases hf

theorem setTag_eq_some {tag : F → Option (F × List I)} {c f : F} {s t : F × List I}
    (h : setTag tag c t f = some s) : (f = c ∧ s = t) ∨ (f ≠ c ∧ tag f = some s) := by
  unfold setTag at h
  split at h
  · rename_i hf
    exact Or.inl ⟨hf, (Option.some.inj h).symm⟩
  · rename_i hf
    exact Or.inr ⟨hf, h⟩

/-- An untagged table without tables behind it is put behind a slot that holds no table. -/
theorem adopt (L : Layout h kern share top tag) {f₀ o₀ c : F} {p₀ : List I} {i₀ : I}
    (hf₀ : tag f₀ = some (o₀, p₀)) (hp₀ : p₀.length < top) (hc : tag c = none)
    (hslot : ∀ d, h (top - p₀.length) f₀ i₀ ≠ .table d) (hlink : h' (top - p₀.length) f₀ i₀ = .table c)
    (htable : ∀ j d, h' (top - (p₀.length + 1)) c j ≠ .table d)
    (hleaf : o₀ ≠ kern → p₀.length + 1 < top → ∀ j v, h' (top - (p₀.length + 1)) c j ≠ .leaf v)
    (hsame : ∀ f o p, tag f = some (o, p) → ∀ j, ¬ (f = f₀ ∧ j = i₀) →
      h' (top - p.length) f j = h (top - p.length) f j) :
    Layout h' kern share top (setTag tag c (o₀, p₀ ++ [i₀])) where
  kern_root := setTag_of_tagged _ hc L.kern_root
  root hf := by
    rcases setTag_eq_some hf with ⟨-, heq⟩ | ⟨-, hf⟩
    · simp at heq
    · exact L.root hf
  depth hf := by
    rcases setTag_eq_some hf with ⟨-, heq⟩ | ⟨-, hf⟩
    · cases heq
      rw [List.length_append, List.length_singleton]
      exact hp₀
    · exact L.depth hf
  parent {f o p j} hf := by
    rcases setTag_eq_some hf with ⟨rfl, heq⟩ | ⟨-, hf⟩
    · simp only [Prod.mk.injEq] at heq
      obtain ⟨rfl, hpath⟩ := heq
      obtain ⟨rfl, hj⟩ := List.append_inj' hpath rfl
      rw [List.singleton_inj] at hj
      subst hj
      exact ⟨f₀, setTag_of_tagged _ hc hf₀, hlink⟩
    · obtain ⟨g, hg, hg'⟩ := L.parent hf
      refine ⟨g, setTag_of_tagged _ hc hg, ?_⟩
      rw [hsame g o p hg]
      · exact hg'
      · rintro ⟨rfl, rfl⟩
        rw [hf₀] at hg
        cases hg
        exact hslot f hg'
  child {f o p j d} hf hd := by
    rcases setTag_eq_some hf with ⟨rfl, heq⟩ | ⟨-, hft⟩
    · cases heq
      rw [List.length_append, List.length_singleton] at hd
      exact absurd hd (htable j d)
    · by_cases hhere : f = f₀ ∧ j = i₀
      · obtain ⟨rfl, rfl⟩ := hhere
        rw [hf₀] at hft
        cases hft
        rw [hlink] at hd
        cases hd
        exact Or.inl (setTag_self _ _ _)
      · rw [hsame f o p hft j hhere] at hd
        rcases L.child hft hd with hown | ⟨ho, hshare, hkern⟩
        · exact Or.inl (setTag_of_tagged _ hc hown)
        · exact Or.inr ⟨ho, hshare, setTag_of_tagged _ hc hkern⟩
  leaf {f o p j v} hf ho hp hv := by
    rcases setTag_eq_some hf with ⟨rfl, heq⟩ | ⟨-, hft⟩
    · cases heq
      rw [List.length_append, List.length_singleton] at hp hv
      exact absurd hv (hleaf ho hp j v)
    · have hhere : ¬ (f = f₀ ∧ j = i₀) := by
        rintro ⟨rfl, rfl⟩
        rw [hf₀] at hft
        cases hft
        rw [hlink] at hv
        cases hv
      rw [hsame f o p hft j hhere] at hv
      obtain ⟨hshare, g, hg, hne⟩ := L.leaf hft ho hp hv
      refine ⟨hshare, g, setTag_of_tagged _ hc hg, ?_⟩
      by_cases hthere : g = f₀ ∧ j = i₀
      · obtain ⟨rfl, rfl⟩ := hthere
        rw [hf₀] at hg
        cases hg
        rw [hlink]
        exact fun hn => by cases hn
      · rw [hsame g kern p hg j hthere]
        exact hne

/-- An untagged empty table becomes the root of a tree. -/
theorem addRoot (L : Layout h kern share top tag) {c : F} (hc : tag c = none) (hempty : ∀ j, h' top c j = .none)
    (hsame : ∀ f o p, tag f = some (o, p) → ∀ j, h' (top - p.length) f j = h (top - p.length) f j) :
    Layout h' kern share top (setTag tag c (c, [])) := by
  have L' := L.congr hsame
  constructor
  · exact setTag_of_tagged _ hc L'.kern_root
  · intro f o hf
    rcases setTag_eq_some hf with ⟨rfl, heq⟩ | ⟨-, hf⟩
    · cases heq
      rfl
    · exact L'.root hf
  · intro f o p hf
    rcases setTag_eq_some hf with ⟨-, heq⟩ | ⟨-, hf⟩
    · cases heq
      exact Nat.zero_le _
    · exact L'.depth hf
  · intro f o p j hf
    rcases setTag_eq_some hf with ⟨-, heq⟩ | ⟨-, hf⟩
    · simp at heq
    · obtain ⟨g, hg, hlink⟩ := L'.parent hf
      exact ⟨g, setTag_of_tagged _ hc hg, hlink⟩
  · intro f o p j d hf hd
    rcases setTag_eq_some hf with ⟨rfl, heq⟩ | ⟨-, hf⟩
    · cases heq
      rw [List.length_nil, Nat.sub_zero, hempty j] at hd
      cases hd
    · rcases L'.child hf hd with hown | ⟨ho, hshare, hkern⟩
      · exact Or.inl (setTag_of_tagged _ hc hown)
      · exact Or.inr ⟨ho, hshare, setTag_of_tagged _ hc hkern⟩
  · intro f o p j v hf ho hp hv
    rcases setTag_eq_some hf with ⟨rfl, heq⟩ | ⟨-, hf⟩
    · cases heq
      rw [List.length_nil, Nat.sub_zero, hempty j] at hv
      cases hv
    · obtain ⟨hshare, g, hg, hne⟩ := L'.leaf hf ho hp hv
      exact ⟨hshare, g, setTag_of_tagged _ hc hg, hne⟩

omit [DecidableEq F] in
/-- Shareable entries of a table of `kern` are copied into empty slots of the table on the same path. -/
theorem copy (L : Layout h kern share top tag) {f₀ g₀ o₀ : F} {p₀ : List I} (hf₀ : tag f₀ = some (o₀, p₀))
    (hg₀ : tag g₀ = some (kern, p₀)) (ho₀ : o₀ ≠ kern)
    (hcopy : ∀ j, h' (top - p₀.length) f₀ j = h (top - p₀.length) f₀ j ∨
      (share p₀ j ∧ h (top - p₀.length) f₀ j = .none ∧ h' (top - p₀.length) f₀ j = h (top - p₀.length) g₀ j))
    (hsame : ∀ f o p, tag f = some (o, p) → f ≠ f₀ → ∀ j, h' (top - p.length) f j = h (top - p.length) f j) :
    Layout h' kern share top tag := by
  -- a table of `kern` is not the one that is written
  have hkern : ∀ {g p} j, tag g = some (kern, p) → h' (top - p.length) g j = h (top - p.length) g j := by
    intro g p j hg
    refine hsame g kern p hg ?_ j
    rintro rfl
    rw [hf₀] at hg
    cases hg
    exact ho₀ rfl
  refine ⟨L.kern_root, L.root, L.depth, ?_, ?_, ?_⟩
  · intro f o p j hf
    obtain ⟨g, hg, hlink⟩ := L.parent hf
    refine ⟨g, hg, ?_⟩
    by_cases hhere : g = f₀
    · subst hhere
      rw [hf₀] at hg
      cases hg
      rcases hcopy j with heq | ⟨-, hnone, -⟩
      · rw [heq]
        exact hlink
      · rw [hnone] at hlink
        cases hlink
    · rw [hsame g o p hg hhere]
      exact hlink
  · intro f o p j d hf hd
    by_cases hhere : f = f₀
    · subst hhere
      rw [hf₀] at hf
      cases hf
      rcases hcopy j with heq | ⟨hshare, -, heq⟩
      · rw [heq] at hd
        exact L.child hf₀ hd
      · rw [heq] at hd
        rcases L.child hg₀ hd with hown | ⟨hne, -⟩
        · exact Or.inr ⟨ho₀, hshare, hown⟩
        · exact absurd rfl hne
    · rw [hsame f o p hf hhere] at hd
      exact L.child hf hd
  · intro f o p j v hf ho hp hv
    by_cases hhere : f = f₀
    · subst hhere
      rw [hf₀] at hf
      cases hf
      rcases hcopy j with heq | ⟨hshare, -, heq⟩
      · rw [heq] at hv
        obtain ⟨hshare, g, hg, hne⟩ := L.leaf hf₀ ho hp hv
        exact ⟨hshare, g, hg, by rw [hkern j hg]; exact hne⟩
      · refine ⟨hshare, g₀, hg₀, ?_⟩
        rw [hkern j hg₀, ← heq, hv]
        exact fun hn => by cases hn
    · rw [hsame f o p hf hhere] at hv
      obtain ⟨hshare, g, hg, hne⟩ := L.leaf hf ho hp hv
      exact ⟨hshare, g, hg, by rw [hkern j hg]; exact hne⟩

/-- The tags after the tree of `o` has been given up. -/
def dropTag (tag : F → Option (F × List I)) (o : F) : F → Option (F × List I) :=
  fun f => (tag f).filter fun t => decide (t.1 ≠ o)

theorem dropTag_eq_some {tag : F → Option (F × List I)} {o f : F} {s : F × List I} :
    dropTag tag o f = some s ↔ tag f = some s ∧ s.1 ≠ o := by
  unfold dropTag
  rw [Option.filter_eq_some_iff, decide_eq_true_iff]

/-- A tree other than that of `kern` is given up; its tables stay as they are, but have no owner. -/
theorem dropOwner (L : Layout h kern share top tag) {o₀ : F} (ho₀ : o₀ ≠ kern) :
    Layout h kern share top (dropTag tag o₀) where
  kern_root := dropTag_eq_some.2 ⟨L.kern_root, ho₀.symm⟩
  root hf := L.root (dropTag_eq_some.1 hf).1
  depth hf := L.depth (dropTag_eq_some.1 hf).1
  parent hf := by
    obtain ⟨hf, ho⟩ := dropTag_eq_some.1 hf
    obtain ⟨g, hg, hlink⟩ := L.parent hf
    exact ⟨g, dropTag_eq_some.2 ⟨hg, ho⟩, hlink⟩
  child hf hc := by
    obtain ⟨hf, ho⟩ := dropTag_eq_some.1 hf
    rcases L.child hf hc with hown | ⟨hne, hshare, hkern⟩
    · exact Or.inl (dropTag_eq_some.2 ⟨hown, ho⟩)
    · exact Or.inr ⟨hne, hshare, dropTag_eq_some.2 ⟨hkern, ho₀.symm⟩⟩
  leaf hf ho hp hv := by
    obtain ⟨hf, -⟩ := dropTag_eq_some.1 hf
    obtain ⟨hshare, g, hg, hne⟩ := L.leaf hf ho hp hv
    exact ⟨hshare, g, dropTag_eq_some.2 ⟨hg, ho₀.symm⟩, hne⟩

end Layout

/-! ### A single tree -/

/-- The table `f` is reached from the root on the path `p`. -/
def TableAt (h : Heap F I V) (root : F) (top : Nat) (p : List I) (f : F) : Prop :=
  p.length ≤ top ∧ descend h p top root = some f

/-- One slot further up. -/
theorem TableAt.cons {h : Heap F I V} {f c g : F} {l : Nat} {i : I} {p : List I} (hg : TableAt h c l p g)
    (hc : h (l + 1) f i = .table c) : TableAt h f (l + 1) (i :: p) g := by
  refine ⟨Nat.succ_le_succ hg.1, ?_⟩
  unfold descend
  rw [hc]
  exact hg.2

/-- What the links lead out of on no level holds all tables of a tree. -/
theorem TableAt.of_closed {h : Heap F I V} {S : Nat → F → Prop} (hS : ∀ l f i c, S l f → h l f i = .table c → S (l - 1) c)
    {root f : F} {top : Nat} {p : List I} (hroot : S top root) (hf : TableAt h root top p f) : S (top - p.length) f := by
  obtain ⟨-, hf⟩ := hf
  induction p generalizing root top with
  | nil =>
    cases hf
    exact hroot
  | cons i p ih =>
    unfold descend at hf
    split at hf
    · rename_i c hc
      rw [List.length_cons, Nat.add_comm, ← Nat.sub_sub]
      exact ih (hS top root i c hroot hc) hf
    · cases hf

/-- What is resolved from a table depends on the tables that it reaches. -/
theorem resolve_eq_of_tableAt {h h' : Heap F I V} (hlowest : ∀ f j c, h 0 f j ≠ .table c) {f : F} {l : Nat} {is : List I}
    (hsame : ∀ p g, TableAt h f l p g → ∀ j, h' (l - p.length) g j = h (l - p.length) g j) (hlen : is.length = l + 1) :
    resolve h' is f = resolve h is f := by
  induction is generalizing f l with
  | nil => rfl
  | cons i is ih =>
    have hlevel : is.length = l := Nat.succ.inj hlen
    have hhere : h' l f i = h l f i := hsame [] f ⟨Nat.zero_le _, rfl⟩ i
    unfold resolve
    rw [hlevel, hhere]
    cases hlink : h l f i with
    | none => rfl
    | leaf v => rfl
    | table c =>
      cases l with
      | zero => exact absurd hlink (hlowest f i c)
      | succ l =>
        refine ih (fun p g hg => ?_) hlevel
        have hstep := hsame (i :: p) g (hg.cons hlink)
        rw [List.length_cons, Nat.add_sub_add_right] at hstep
        exact hstep

/-- The tables that an owner reaches are its own, or those of `kern`. -/
theorem Layout.tag_of_tableAt {h : Heap F I V} {kern o f : F} {share : List I → I → Prop} {top : Nat}
    {tag : F → Option (F × List I)} (L : Layout h kern share top tag) (hroot : tag o = some (o, [])) {p : List I}
    (hf : TableAt h o top p f) : ∃ q, tag f = some (q, p) := by
  induction p using List.reverseRecOn generalizing f with
  | nil =>
    cases hf.2
    exact ⟨o, hroot⟩
  | append_singleton p j ih =>
    obtain ⟨hlen, hpath⟩ := hf
    rw [List.length_append, List.length_singleton] at hlen
    rw [descend_append] at hpath
    obtain ⟨g, hg, hlast⟩ := Option.bind_eq_some_iff.1 hpath
    obtain ⟨q, hq⟩ := ih ⟨by omega, hg⟩
    unfold descend at hlast
    split at hlast
    · rename_i c hc
      cases hlast
      rcases L.child hq hc with hown | ⟨-, -, hkern⟩
      · exact ⟨q, hown⟩
      · exact ⟨kern, hkern⟩
    · cases hlast

open Classical in
/-- The path of every table of a tree. -/
noncomputable def pathTag (h : Heap F I V) (root : F) (top : Nat) : F → Option (F × List I) :=
  fun f => if hf : ∃ p, TableAt h root top p f then some (root, hf.choose) else none

theorem pathTag_eq_some {h : Heap F I V} {root f o : F} {top : Nat} {p : List I}
    (hf : pathTag h root top f = some (o, p)) : o = root ∧ TableAt h root top p f := by
  unfold pathTag at hf
  split at hf
  · rename_i hex
    cases hf
    exact ⟨rfl, hex.choose_spec⟩
  · cases hf

theorem pathTag_eq_none {h : Heap F I V} {root f : F} {top : Nat} (hf : ∀ p, ¬ TableAt h root top p f) :
    pathTag h root top f = none := by
  unfold pathTag
  rw [dif_neg fun ⟨p, hp⟩ => hf p hp]

/-- A tree without sharing is a layout of its own. -/
theorem layout_pathTag {h : Heap F I V} {root : F} {top : Nat} (share : List I → I → Prop)
    (hlowest : ∀ f j c, h 0 f j ≠ .table c)
    (hone : ∀ p q f, TableAt h root top p f → TableAt h root top q f → p = q) :
    Layout h root share top (pathTag h root top) := by
  have htag : ∀ {f p}, TableAt h root top p f → pathTag h root top f = some (root, p) := by
    intro f p hp
    have hex : ∃ p, TableAt h root top p f := ⟨p, hp⟩
    unfold pathTag
    rw [dif_pos hex, hone _ _ _ hex.choose_spec hp]
  refine ⟨htag ⟨Nat.zero_le _, rfl⟩, ?_, ?_, ?_, ?_, ?_⟩
  · intro f o hf
    obtain ⟨rfl, -, hroot⟩ := pathTag_eq_some hf
    exact (Option.some.inj hroot).symm
  · intro f o p hf
    exact (pathTag_eq_some hf).2.1
  · intro f o p j hf
    obtain ⟨rfl, hlen, hpath⟩ := pathTag_eq_some hf
    rw [List.length_append, List.length_singleton] at hlen
    rw [descend_append] at hpath
    obtain ⟨g, hg, hlast⟩ := Option.bind_eq_some_iff.1 hpath
    refine ⟨g, htag ⟨by omega, hg⟩, ?_⟩
    unfold descend at hlast
    split at hlast
    · rename_i c hc
      rw [hc]
      exact congrArg _ (Option.some.inj hlast)
    · cases hlast
  · intro f o p j c hf hc
    obtain ⟨rfl, hlen, hpath⟩ := pathTag_eq_some hf
    have hlt : p.length < top := by
      refine Nat.lt_of_le_of_ne hlen fun heq => ?_
      rw [heq, Nat.sub_self] at hc
      exact hlowest f j c hc
    refine Or.inl (htag ⟨?_, ?_⟩)
    · rw [List.length_append, List.length_singleton]
      exact hlt
    · rw [descend_append, hpath, Option.bind_some]
      unfold descend
      rw [hc]
      rfl
  · intro f o p j v hf ho
    exact absurd (pathTag_eq_some hf).1 ho

end TableTree

end Rost.Lib
