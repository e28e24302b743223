import Rost.Memory.Boot

/-!
# Pages for user mode

Which frames user mode reaches through a PML4.  An access is allowed if all the entries on its way carry `PTE_USER`
(`Accessible`); the entry of the page itself decides who may get there at all (`UserMaps`).  Nothing that a user PML4
shares with the kernel is open to user mode, and no 2 MB page is (`Sealed`), so all these pages lie in page tables of the
owner (`Opens`).  Building page tables opens no other frame than the one that is written (`Opens.of_builds`).
-/

namespace Rost

open Lib.TableTree (resolve descend Layout)

namespace Memory

/-- User mode can access a page in the frame `f`. -/
def Accessible (m : Memory) (pml4 f : Word) : Prop :=
  ∃ virt phys, m.translateAddress pml4 virt = some phys ∧ m.hasRight pml4 virt pteUser = true ∧ frameOf phys = f

/-- The entry of some 4 KB page in the frame `f` carries `PTE_USER`. -/
def UserMaps (m : Memory) (pml4 f : Word) : Prop :=
  ∃ path e, path.length = 4 ∧ resolve m.links path pml4 = some (0, e) ∧ e &&& pteUser ≠ 0 ∧ e &&& pteAddrMask = f

/-- What the kernel shares is closed to user mode, and so are the 2 MB pages. -/
structure Sealed (m : Memory) (kern : Word) (tag : Tags) : Prop where
  supervisor : Supervisor m kern tag
  huge : ∀ {f o p} j {e}, tag f = some (o, p) → p.length < 3 → m.links (3 - p.length) f j = .leaf e → e &&& pteUser = 0

/-- A page table of the owner `o` has a page for user mode in the frame `f`. -/
def Opens (m : Memory) (tag : Tags) (o f : Word) : Prop :=
  ∃ g p j, tag g = some (o, p) ∧ p.length = 3 ∧ m.ram g j &&& ptePresent ≠ 0 ∧ m.ram g j &&& pteUser ≠ 0 ∧
    m.ram g j &&& pteAddrMask = f

/-! ### The walk -/

/-- The right of a page is a right of its entry. -/
theorem resolve_of_hasRight {m : Memory} {pml4 virt right : Word} (h : m.hasRight pml4 virt right = true) :
    ∃ l e, resolve m.links (pathOf virt) pml4 = some (l, e) ∧ e &&& right ≠ 0 := by
  obtain ⟨es, hwalk, hall⟩ := (Option.any_eq_true _ _).1 h
  have hright : ∀ e ∈ es, e &&& right ≠ 0 := fun e he => of_decide_eq_true (List.all_eq_true.1 hall e he)
  unfold walk at hwalk
  unfold pathOf
  simp only at hwalk
  simp only [resolve, links, List.length_cons, List.length_nil, Nat.zero_add, Nat.reduceAdd]
  split at hwalk
  · cases hwalk
  · rename_i h4
    rw [decode_upper h4 (by omega)]
    simp only
    generalize m.ram pml4 (pml4Index virt) = e4 at hwalk ⊢
    split at hwalk
    · cases hwalk
    · rename_i h3
      rw [decode_upper h3 (by omega)]
      simp only
      generalize m.ram (e4 &&& pteAddrMask) (pdptIndex virt) = e3 at hwalk ⊢
      split at hwalk
      · cases hwalk
      · rename_i h2
        split at hwalk
        · rename_i hhuge
          cases hwalk
          rw [decode_huge h2 hhuge]
          exact ⟨1, _, rfl, hright _ (by simp)⟩
        · rename_i hsmall
          rw [decode_small h2 (not_not.1 hsmall) (by omega)]
          simp only
          generalize m.ram (e3 &&& pteAddrMask) (pdIndex virt) = e2 at hwalk ⊢
          split at hwalk
          · cases hwalk
          · rename_i h1
            cases hwalk
            rw [decode_page h1]
            exact ⟨0, _, rfl, hright _ (by simp)⟩

/-- The frame of a byte on a 4 KB page. -/
theorem frameOf_leafAddress (virt e : Word) : frameOf (leafAddress virt (0, e)) = e &&& pteAddrMask := by
  have hmask : pteAddrMask &&& ~~~0xFFF#64 = pteAddrMask := by decide
  have hlow : (0xFFF#64 : Word) &&& ~~~0xFFF#64 = 0 := by decide
  unfold frameOf leafAddress
  simp only
  rw [if_neg (by decide), or_and, BitVec.and_assoc, hmask, BitVec.and_assoc virt, hlow]
  simp

section Sealed

variable {m m' : Memory} {kern o : Word} {tag tag' : Tags}

/-- A page for user mode is one of the owner's page tables. -/
private theorem opens_of_resolve (T : Tables m kern tag) (hs : Sealed m kern tag) {f q : Word} {p is : List (Fin 512)}
    (hf : tag f = some (q, p)) (hq : q = o ∨ q = kern) (hlen : p.length + is.length = 4) {l : Nat} {e : Word}
    (hres : resolve m.links is f = some (l, e)) (huser : e &&& pteUser ≠ 0) :
    l = 0 ∧ Opens m tag o (e &&& pteAddrMask) := by
  induction is generalizing f q p with
  | nil => cases hres
  | cons i is ih =>
    rw [List.length_cons] at hlen
    have hlevel : is.length = 3 - p.length := by omega
    unfold resolve at hres
    rw [hlevel] at hres
    split at hres
    · cases hres
    · rename_i v hv
      cases hres
      obtain ⟨hpresent, hleaf, rfl⟩ := decode_eq_leaf hv
      rcases hq with rfl | rfl
      · by_cases hp : p.length < 3
        · exact absurd (hs.huge i hf hp hv) huser
        · have hthree : p.length = 3 := by
            have := T.layout.depth hf
            omega
          exact ⟨by omega, f, p, i, hf, hthree, hpresent, huser, rfl⟩
      · exact absurd (hs.supervisor i hf) huser
    · rename_i c hc
      have hlen' : (p ++ [i]).length + is.length = 4 := by
        rw [List.length_append, List.length_singleton]
        omega
      rcases T.layout.child hf hc with hown | ⟨-, -, hkern⟩
      · exact ih hown hq hlen' hres
      · exact ih hkern (Or.inr rfl) hlen' hres

/-- The pages for user mode, through the PML4 and by the tables of its owner. -/
theorem Sealed.userMaps_iff (hs : Sealed m kern tag) (T : Tables m kern tag) (ho : tag o = some (o, [])) {f : Word} :
    m.UserMaps o f ↔ Opens m tag o f := by
  constructor
  · rintro ⟨path, e, hlen, hres, huser, rfl⟩
    exact (opens_of_resolve T hs ho (Or.inl rfl) (by rw [hlen]; rfl) hres huser).2
  · rintro ⟨g, p, j, hg, hp, hpresent, huser, rfl⟩
    refine ⟨p ++ [j], m.ram g j, by rw [List.length_append, hp]; rfl, ?_, huser, rfl⟩
    have hlen : p.length + [j].length = 3 + 1 := by
      rw [hp]
      rfl
    rw [Lib.TableTree.resolve_of_descend hlen (T.layout.descend_of_tag hg)]
    have hpage : m.links 0 g j = .leaf (m.ram g j) := decode_page hpresent
    simp only [resolve, List.length_nil, hpage]

/-- What user mode can access is open to it. -/
theorem Sealed.opens_of_accessible (hs : Sealed m kern tag) (T : Tables m kern tag) (ho : tag o = some (o, []))
    {f : Word} (h : m.Accessible o f) : Opens m tag o f := by
  obtain ⟨virt, phys, htranslate, hright, rfl⟩ := h
  obtain ⟨l, e, hres, huser⟩ := resolve_of_hasRight hright
  obtain ⟨rfl, hopens⟩ := opens_of_resolve (o := o) T hs ho (Or.inl rfl) (by rw [length_pathOf]; rfl) hres huser
  rw [translateAddress_eq, hres] at htranslate
  cases htranslate
  rw [frameOf_leafAddress]
  exact hopens

/-- Nothing of the kernel is open to user mode. -/
theorem Sealed.not_opens_kern (hs : Sealed m kern tag) (f : Word) : ¬ Opens m tag kern f := by
  rintro ⟨g, p, j, hg, -, -, huser, -⟩
  exact huser (hs.supervisor j hg)

/-! ### Building page tables -/

variable {W : List (Fin 512) → Word → Prop}

/-- Only the owner gets pages for user mode, and only those that are written. -/
theorem Opens.of_builds (hb : Builds W kern o m tag m' tag') {q f : Word} (h : Opens m' tag' q f) :
    Opens m tag q f ∨ (q = o ∧ ∃ path e, W path e ∧ e &&& pteUser ≠ 0 ∧ e &&& pteAddrMask = f) := by
  obtain ⟨g, p, j, hg, hp, hpresent, huser, rfl⟩ := h
  by_cases hq : q = o
  · subst hq
    have hlevel : 3 - p.length = 0 := by omega
    rcases hb.slots j hg with ⟨hold, hsame⟩ | hnone | ⟨c, hc, -⟩ | hW
    · rw [hsame] at hpresent huser ⊢
      exact Or.inl ⟨g, p, j, hold, hp, hpresent, huser, rfl⟩
    · exact absurd (decode_eq_none.1 hnone) hpresent
    · rw [hlevel] at hc
      exact absurd hc (decode_zero_ne_table _ c)
    · exact Or.inr ⟨rfl, _, _, hW, huser, rfl⟩
  · rcases hb.grows.new hg with hold | hnew
    · rw [hb.others hold hq j] at hpresent huser ⊢
      exact Or.inl ⟨g, p, j, hold, hp, hpresent, huser, rfl⟩
    · exact absurd hnew hq

/-- If only 4 KB pages are written, nothing else is opened. -/
theorem Sealed.builds (hs : Sealed m kern tag) (hb : Builds W kern o m tag m' tag') (ho : o ≠ kern)
    (hW : ∀ q e, W q e → q.length = 4) : Sealed m' kern tag' := by
  refine ⟨fun {f p} j hf => ?_, fun {f q p} j e hf hp hleaf => ?_⟩
  · rcases hb.grows.new hf with hold | hnew
    · rw [hb.others hold ho.symm j]
      exact hs.supervisor j hold
    · exact absurd hnew.symm ho
  · by_cases hq : q = o
    · subst hq
      rcases hb.slots j hf with ⟨hold, hsame⟩ | hnone | ⟨c, hc, -⟩ | hw
      · refine hs.huge j hold hp ?_
        unfold links at hleaf ⊢
        rw [← hsame]
        exact hleaf
      · rw [hnone] at hleaf
        cases hleaf
      · rw [hc] at hleaf
        cases hleaf
      · have hlen := hW _ _ hw
        rw [List.length_append, List.length_singleton] at hlen
        omega
    · rcases hb.grows.new hf with hold | hnew
      · refine hs.huge j hold hp ?_
        unfold links at hleaf ⊢
        rw [← hb.others hold hq j]
        exact hleaf
      · exact absurd hnew hq

/-! ### Giving up tables -/

/-- There are fewer tables than before, with what they held. -/
theorem Opens.of_tags {q f : Word} (h : Opens m' tag' q f) (htag : ∀ {f t}, tag' f = some t → tag f = some t)
    (hram : m'.ram = m.ram) : Opens m tag q f := by
  obtain ⟨g, p, j, hg, hp, hentry⟩ := h
  rw [hram] at hentry
  exact ⟨g, p, j, htag hg, hp, hentry⟩

theorem Sealed.of_tags (hs : Sealed m kern tag) (htag : ∀ {f t}, tag' f = some t → tag f = some t)
    (hram : m'.ram = m.ram) : Sealed m' kern tag' := by
  refine ⟨fun j hf => ?_, fun j e hf hp hleaf => ?_⟩
  · rw [hram]
    exact hs.supervisor j (htag hf)
  · unfold links at hleaf
    rw [hram] at hleaf
    exact hs.huge j (htag hf) hp hleaf

end Sealed

end Memory

end Rost
