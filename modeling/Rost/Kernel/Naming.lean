import Rost.Kernel.Registry
import Rost.Lib.Run
import Mathlib.Data.Finset.Card

/-!
# The registry as a map

`register` compares the whole name with the stored ones, but stores 15 bytes of it.  So a name of more than 15 bytes is
accepted and never found again, and can put a second entry beside the one of its first 15 bytes.  As long as no such name
is accepted, the registry is a map from names to pids: `mapLaws_iff` says that its laws hold in all states of a run
exactly then.
-/

namespace Rost

open Lib (Run exec run_of_exec)

namespace Registry

inductive Op where
  | register (name : List Byte) (pid : Nat)
  | unregisterPid (pid : Nat)
deriving DecidableEq

def step (t : Registry) : Op → Option (Registry × Bool)
  | .register name pid => some (t.register name pid)
  | .unregisterPid pid => some (t.unregisterPid pid)

/-- The names of the used entries. -/
def keys (t : Registry) : List (List Byte) := (t.filter ServiceEntry.used).map fun e => trimName e.name

/-- The event neither registers the name `key` again nor unregisters `pid`. -/
def KeepsBinding (key : List Byte) (pid : Nat) : Op × Bool → Prop
  | (.register name _, true) => trimName name ≠ key
  | (.register _ _, false) => True
  | (.unregisterPid q, _) => q ≠ pid

/-- The laws of a map from trimmed names to pids, after the operations and results `es`. -/
structure MapLaws (es : List (Op × Bool)) (t : Registry) : Prop where
  bound : ∀ es₁ es₂ name pid, es = es₁ ++ (.register name pid, true) :: es₂ →
    (∀ e ∈ es₂, KeepsBinding (trimName name) pid e) → t.lookup name = some pid
  distinct : t.keys.Nodup
  issued : ∀ name pid, t.lookup name = some pid → ∃ m, (.register m pid, true) ∈ es ∧ trimName m = trimName name
  refused : ∀ name pid, (t.register name pid).2 = false →
    trimName name = [] ∨ t.keys.toFinset.card = maxServices

/-- A name that is registered has at most 15 bytes before its first NUL, or there is no free entry for it. -/
def Stores (t : Registry) : Op → Prop
  | .register name _ => (trimName name).length < nameLen ∨ ∀ e ∈ t, e.used = true
  | .unregisterPid _ => True

/-- The table has its 16 entries, and their names at most 15 bytes. -/
structure Shaped (t : Registry) : Prop where
  length : t.length = maxServices
  short : ∀ e ∈ t, (trimName e.name).length < nameLen

/-! ### One operation -/

section

variable {t t' : Registry} {name : List Byte} {pid : Nat}

private theorem length_updateFirst (p : ServiceEntry → Bool) (f : ServiceEntry → ServiceEntry) (t : Registry) :
    (updateFirst p f t).length = t.length := by
  induction t with
  | nil => rfl
  | cons e t ih =>
    unfold updateFirst
    split
    · rfl
    · rw [List.length_cons, List.length_cons, ih]

/-- A registration is refused for the empty name and in a full table, and changes nothing then; else it changes the entry
of the name or takes a free one. -/
theorem register_cases (t : Registry) (name : List Byte) (pid : Nat) :
    (t.register name pid = (t, false) ∧ (trimName name = [] ∨ ∀ e ∈ t, e.used = true)) ∨
    (t.any (hasName (trimName name)) = true ∧
      t.register name pid = (updateFirst (hasName (trimName name)) (fun e => { e with pid := pid }) t, true)) ∨
    (t.any (hasName (trimName name)) = false ∧ t.any (fun e => !e.used) = true ∧ ∃ stored,
      trimName stored = (trimName name).take (nameLen - 1) ∧
      t.register name pid = (updateFirst (fun e => !e.used) (fun _ => ⟨stored, pid, true⟩) t, true)) := by
  unfold register
  dsimp only
  split
  · rename_i hempty
    exact Or.inl ⟨rfl, Or.inl hempty⟩
  · split
    · rename_i hany
      exact Or.inr (Or.inl ⟨hany, rfl⟩)
    · rename_i hnone
      split
      · rename_i hfree
        exact Or.inr (Or.inr ⟨by simpa using hnone, hfree, _, trimName_stored name _, rfl⟩)
      · rename_i hfull
        exact Or.inl ⟨rfl, Or.inr (by simpa using hfull)⟩

theorem register_refused (h : t.register name pid = (t', false)) : t' = t := by
  rcases t.register_cases name pid with ⟨heq, -⟩ | ⟨-, heq⟩ | ⟨-, -, stored, -, heq⟩
  · rw [heq] at h
    exact (congrArg Prod.fst h).symm
  · rw [heq] at h
    cases h
  · rw [heq] at h
    cases h

theorem Shaped.new : Shaped new := by
  refine ⟨List.length_replicate, fun e he => ?_⟩
  rw [List.eq_of_mem_replicate he]
  decide

theorem Shaped.register (h : t.Shaped) (name : List Byte) (pid : Nat) : (t.register name pid).1.Shaped := by
  rcases t.register_cases name pid with ⟨heq, -⟩ | ⟨-, heq⟩ | ⟨-, -, stored, hstored, heq⟩
  · rw [heq]
    exact h
  · rw [heq]
    refine ⟨(length_updateFirst _ _ t).trans h.length, fun x hx => ?_⟩
    rcases mem_updateFirst hx with hx | ⟨e, he, -, rfl⟩
    · exact h.short x hx
    · exact h.short e he
  · rw [heq]
    refine ⟨(length_updateFirst _ _ t).trans h.length, fun x hx => ?_⟩
    rcases mem_updateFirst hx with hx | ⟨e, he, -, rfl⟩
    · exact h.short x hx
    · rw [hstored, List.length_take]
      exact lt_of_le_of_lt (Nat.min_le_left _ _) (by decide)

theorem Shaped.unregisterPid (h : t.Shaped) (pid : Nat) : (t.unregisterPid pid).1.Shaped := by
  refine ⟨(length_updateFirst _ _ t).trans h.length, fun x hx => ?_⟩
  rcases mem_updateFirst hx with hx | ⟨e, he, -, rfl⟩
  · exact h.short x hx
  · exact h.short e he

theorem Shaped.step (h : t.Shaped) {op : Op} {r : Bool} (hstep : t.step op = some (t', r)) : t'.Shaped := by
  cases op with
  | register name pid =>
    have hfst : (t.register name pid).1 = t' := congrArg Prod.fst (Option.some.inj hstep)
    rw [← hfst]
    exact h.register name pid
  | unregisterPid pid =>
    have hfst : (t.unregisterPid pid).1 = t' := congrArg Prod.fst (Option.some.inj hstep)
    rw [← hfst]
    exact h.unregisterPid pid

/-- An entry has a short name, so a long name is found in none. -/
theorem Shaped.lookup_eq_none (h : t.Shaped) (hlong : nameLen ≤ (trimName name).length) : t.lookup name = none := by
  unfold lookup
  rw [List.find?_eq_none.2 fun e he hname => ?_]
  · rfl
  · have hkey : trimName e.name = trimName name := by simpa using (Bool.and_eq_true_iff.1 hname).2
    have hshort := h.short e he
    rw [hkey] at hshort
    omega

/-- A registration that succeeds where only short names are stored is one of a short name. -/
theorem Shaped.short_of_register (h : t.Shaped) (hstores : t.Stores (.register name pid))
    (hok : t.register name pid = (t', true)) : (trimName name).length < nameLen := by
  rcases hstores with hshort | hfull
  · exact hshort
  · rcases t.register_cases name pid with ⟨heq, -⟩ | ⟨hany, -⟩ | ⟨-, hfree, -⟩
    · rw [heq] at hok
      cases hok
    · obtain ⟨e, he, hname⟩ := List.any_eq_true.1 hany
      have hkey : trimName e.name = trimName name := by simpa using (Bool.and_eq_true_iff.1 hname).2
      rw [← hkey]
      exact h.short e he
    · obtain ⟨e, he, hunused⟩ := List.any_eq_true.1 hfree
      rw [hfull e he] at hunused
      cases hunused

/-! ### The names in the table -/

private theorem keys_cons (e : ServiceEntry) (t : Registry) :
    keys (e :: t) = if e.used then trimName e.name :: keys t else keys t := by
  unfold keys
  rw [List.filter_cons]
  split <;> rfl

private theorem keys_updateFirst_rebound (key : List Byte) (pid : Nat) (t : Registry) :
    keys (updateFirst (hasName key) (fun e => { e with pid := pid }) t) = keys t := by
  induction t with
  | nil => rfl
  | cons e t ih =>
    unfold updateFirst
    split
    · rw [keys_cons, keys_cons]
    · rw [keys_cons, keys_cons, ih]

private theorem keys_updateFirst_free (stored : List Byte) (pid : Nat) (hfree : t.any (fun e => !e.used) = true) :
    (keys (updateFirst (fun e => !e.used) (fun _ => ⟨stored, pid, true⟩) t)).Perm (trimName stored :: keys t) := by
  induction t with
  | nil => cases hfree
  | cons e t ih =>
    unfold updateFirst
    cases hused : e.used with
    | false => simp [keys_cons, hused]
    | true =>
      have hrest : t.any (fun e => !e.used) = true := by simpa [hused] using hfree
      rw [if_neg (by simp), keys_cons, keys_cons, hused, if_pos rfl, if_pos rfl]
      exact ((ih hrest).cons (trimName e.name)).trans (List.Perm.swap _ _ _)

private theorem keys_unregisterPid (t : Registry) (pid : Nat) : List.Sublist (t.unregisterPid pid).1.keys t.keys := by
  unfold unregisterPid
  dsimp only
  induction t with
  | nil => exact List.Sublist.refl _
  | cons e t ih =>
    unfold updateFirst
    split
    · rw [keys_cons, keys_cons, if_neg (by simp)]
      split
      · exact List.sublist_cons_self _ _
      · exact List.Sublist.refl _
    · rw [keys_cons, keys_cons]
      split
      · exact ih.cons_cons _
      · exact ih

private theorem length_named_le (h : t.keys.Nodup) (key : List Byte) : (t.named key).length ≤ 1 := by
  have hfilter : t.named key = (t.filter ServiceEntry.used).filter fun e => trimName e.name == key := by
    unfold named hasName
    rw [List.filter_filter]
    exact List.filter_congr fun e _ => Bool.and_comm _ _
  have hsub : List.Sublist ((t.named key).map fun e => trimName e.name) t.keys := by
    rw [hfilter]
    exact List.filter_sublist.map _
  have hall : (t.named key).map (fun e => trimName e.name) = List.replicate (t.named key).length key := by
    refine List.eq_replicate_iff.2 ⟨List.length_map _, fun k hk => ?_⟩
    obtain ⟨e, he, rfl⟩ := List.mem_map.1 hk
    simpa using (Bool.and_eq_true_iff.1 (mem_named.1 he).2).2
  have hnodup := hsub.nodup h
  rw [hall, List.nodup_replicate] at hnodup
  exact hnodup

theorem distinct_register (h : t.Shaped) (hdistinct : t.keys.Nodup) (hstores : t.Stores (.register name pid)) :
    (t.register name pid).1.keys.Nodup := by
  rcases t.register_cases name pid with ⟨heq, -⟩ | ⟨-, heq⟩ | ⟨hnone, hfree, stored, hstored, heq⟩
  · rw [heq]
    exact hdistinct
  · rw [heq, keys_updateFirst_rebound]
    exact hdistinct
  · have hshort := h.short_of_register hstores heq
    rw [List.take_of_length_le (by omega)] at hstored
    rw [heq, (keys_updateFirst_free stored pid hfree).nodup_iff, hstored, List.nodup_cons]
    -- the name is stored whole, and no entry had it
    refine ⟨fun hmem => ?_, hdistinct⟩
    obtain ⟨e, he, hkey⟩ := List.mem_map.1 hmem
    obtain ⟨he, hused⟩ := List.mem_filter.1 he
    have hname : hasName (trimName name) e = true := by
      unfold hasName
      rw [hused, hkey]
      simp
    rw [List.any_eq_true.2 ⟨e, he, hname⟩] at hnone
    cases hnone

/-! ### The laws -/

/-- A short name that is registered is bound, and the other names stay as they are. -/
theorem lookup_register (hshort : (trimName name).length < nameLen) (hok : t.register name pid = (t', true))
    (other : List Byte) : t'.lookup other = if trimName other = trimName name then some pid else t.lookup other := by
  have hfst : (t.register name pid).1 = t' := congrArg Prod.fst hok
  by_cases hkey : trimName other = trimName name
  · have hsame : t'.lookup other = t'.lookup name := by
      unfold lookup
      rw [hkey]
    rw [if_pos hkey, hsame, lookup_register_self hok hshort]
  · rw [if_neg hkey, ← hfst]
    refine lookup_register_of_ne (Ne.symm hkey) ?_
    rw [List.take_of_length_le (by omega)]
    exact Ne.symm hkey

/-- With distinct names, unregistering binds no name. -/
theorem lookup_of_unregisterPid (hdistinct : t.keys.Nodup) {q : Nat}
    (h : (t.unregisterPid pid).1.lookup name = some q) : t.lookup name = some q := by
  obtain ⟨e, he, rfl⟩ := named_of_lookup h
  have hmem := mem_named_unregisterPid he
  have hfound : (t.lookup name).isSome = true := by
    unfold lookup
    rw [Option.isSome_map, List.find?_isSome]
    exact ⟨e, mem_named.1 hmem⟩
  obtain ⟨q, hq⟩ := Option.isSome_iff_exists.1 hfound
  rw [hq, pid_of_mem_named (length_named_le hdistinct _) hq hmem]

private theorem refused_of_distinct (h : t.Shaped) (hdistinct : t.keys.Nodup)
    (hrefused : (t.register name pid).2 = false) : trimName name = [] ∨ t.keys.toFinset.card = maxServices := by
  rcases t.register_cases name pid with ⟨-, hempty | hfull⟩ | ⟨-, heq⟩ | ⟨-, -, stored, -, heq⟩
  · exact Or.inl hempty
  · refine Or.inr ?_
    rw [List.toFinset_card_of_nodup hdistinct]
    unfold keys
    rw [List.length_map, List.filter_eq_self.2 hfull, h.length]
  · rw [heq] at hrefused
    cases hrefused
  · rw [heq] at hrefused
    cases hrefused

/-- A binding survives an event that keeps it. -/
private theorem bound_step (h : t.Shaped) {op : Op} {r : Bool} (hstores : t.Stores op) (hstep : t.step op = some (t', r))
    (hkeeps : KeepsBinding (trimName name) pid (op, r)) (hbound : t.lookup name = some pid) : t'.lookup name = some pid := by
  cases op with
  | register m q =>
    have hok : t.register m q = (t', r) := Option.some.inj hstep
    cases r with
    | true =>
      rw [lookup_register (h.short_of_register hstores hok) hok, if_neg (Ne.symm hkeeps)]
      exact hbound
    | false =>
      rw [register_refused hok]
      exact hbound
  | unregisterPid q =>
    have hfst : (t.unregisterPid q).1 = t' := congrArg Prod.fst (Option.some.inj hstep)
    rw [← hfst, lookup_unregisterPid, hbound]
    rw [hbound]
    exact fun e => hkeeps (Option.some.inj e).symm

private theorem issued_step (h : t.Shaped) {es : List (Op × Bool)} (hlaws : MapLaws es t) {op : Op} {r : Bool}
    (hstores : t.Stores op) (hstep : t.step op = some (t', r)) (hfound : t'.lookup name = some pid) :
    ∃ m, (.register m pid, true) ∈ es ++ [(op, r)] ∧ trimName m = trimName name := by
  have hold : t.lookup name = some pid → ∃ m, (.register m pid, true) ∈ es ++ [(op, r)] ∧ trimName m = trimName name := by
    intro hfound
    obtain ⟨m, hm, hkey⟩ := hlaws.issued name pid hfound
    exact ⟨m, List.mem_append_left _ hm, hkey⟩
  cases op with
  | register m q =>
    have hok : t.register m q = (t', r) := Option.some.inj hstep
    cases r with
    | true =>
      rw [lookup_register (h.short_of_register hstores hok) hok] at hfound
      split at hfound
      · rename_i hkey
        cases hfound
        exact ⟨m, List.mem_append_right _ List.mem_cons_self, hkey.symm⟩
      · exact hold hfound
    | false =>
      rw [register_refused hok] at hfound
      exact hold hfound
  | unregisterPid q =>
    have hfst : (t.unregisterPid q).1 = t' := congrArg Prod.fst (Option.some.inj hstep)
    rw [← hfst] at hfound
    exact hold (lookup_of_unregisterPid hlaws.distinct hfound)

/-- An operation that stores no cut name keeps the laws. -/
private theorem MapLaws.step {es : List (Op × Bool)} (hlaws : MapLaws es t) (h : t.Shaped) {op : Op} {r : Bool}
    (hstores : t.Stores op) (hstep : t.step op = some (t', r)) : MapLaws (es ++ [(op, r)]) t' := by
  have hdistinct : t'.keys.Nodup := by
    cases op with
    | register name pid =>
      have hfst : (t.register name pid).1 = t' := congrArg Prod.fst (Option.some.inj hstep)
      rw [← hfst]
      exact distinct_register h hlaws.distinct hstores
    | unregisterPid pid =>
      have hfst : (t.unregisterPid pid).1 = t' := congrArg Prod.fst (Option.some.inj hstep)
      rw [← hfst]
      exact (keys_unregisterPid t pid).nodup hlaws.distinct
  refine ⟨fun es₁ es₂ name pid hes hkeeps => ?_, hdistinct, fun name pid hfound => ?_, fun name pid hrefused => ?_⟩
  · rcases List.eq_nil_or_concat' es₂ with rfl | ⟨es₂, e, rfl⟩
    · -- the last operation registered the name
      obtain ⟨-, heq⟩ := List.append_inj' hes rfl
      obtain ⟨rfl, rfl⟩ := Prod.mk.inj (List.cons.inj heq).1
      have hok : t.register name pid = (t', true) := Option.some.inj hstep
      rw [lookup_register (h.short_of_register hstores hok) hok, if_pos rfl]
    · -- an earlier one did, and the last operation keeps the binding
      rw [← List.cons_append, ← List.append_assoc] at hes
      obtain ⟨hinit, heq⟩ := List.append_inj' hes rfl
      cases (List.cons.inj heq).1
      have hbound := hlaws.bound es₁ es₂ name pid hinit fun e he => hkeeps e (List.mem_append_left _ he)
      exact bound_step h hstores hstep (hkeeps (op, r) (List.mem_append_right _ List.mem_cons_self)) hbound
  · exact issued_step h hlaws hstores hstep hfound
  · exact refused_of_distinct (h.step hstep) hdistinct hrefused

private theorem MapLaws.new : MapLaws [] new := by
  refine ⟨fun es₁ es₂ name pid hes => ?_, by decide, fun name pid hfound => ?_, fun name pid hrefused => ?_⟩
  · cases es₁ <;> cases hes
  · rw [show lookup Registry.new name = none by rfl] at hfound
    cases hfound
  · exact refused_of_distinct Shaped.new (by decide) hrefused

private theorem shaped_run {G : Registry → Op → Prop} {es : List (Op × Bool)} (h : Run step G new es t) : t.Shaped :=
  h.invariant (fun ht _ hstep => ht.step hstep) Shaped.new

/-- The laws of a map hold in every state of a run exactly if it stores no cut name. -/
theorem mapLaws_iff {es : List (Op × Bool)} {t : Registry} (hrun : Run step (fun _ _ => True) new es t) :
    (∀ es₁ es₂ s, es = es₁ ++ es₂ → Run step (fun _ _ => True) new es₁ s → MapLaws es₁ s) ↔
      Run step Stores new es t := by
  constructor
  · intro hlaws
    induction hrun with
    | nil => exact Run.nil _
    | snoc hinit _ hstep ih =>
      rename_i t u es op r _
      have hbefore := ih fun es₁ es₂ s hes hs => hlaws es₁ (es₂ ++ [(op, r)]) s (by rw [hes, List.append_assoc]) hs
      refine hbefore.snoc ?_ hstep
      cases op with
      | unregisterPid => trivial
      | register name pid =>
        -- a long name would be accepted into a free entry, and not be found
        by_contra hcut
        obtain ⟨hlong, hfree⟩ := not_or.1 hcut
        have hok : t.register name pid = (u, r) := Option.some.inj hstep
        cases r with
        | false =>
          rcases t.register_cases name pid with ⟨-, hempty | hfull⟩ | ⟨-, heq⟩ | ⟨-, -, stored, -, heq⟩
          · rw [hempty] at hlong
            exact hlong (by decide)
          · exact hfree hfull
          · rw [heq] at hok
            cases hok
          · rw [heq] at hok
            cases hok
        | true =>
          have hfound := (hlaws (es ++ [(.register name pid, true)]) [] u (List.append_nil _).symm
            (hinit.snoc trivial hstep)).bound es [] name pid rfl (fun e he => by cases he)
          rw [(shaped_run (hinit.snoc trivial hstep)).lookup_eq_none (not_lt.1 hlong)] at hfound
          cases hfound
  · rintro hstored es₁ es₂ s rfl hs
    obtain ⟨s', hs', -⟩ := hstored.split
    cases hs.det hs'
    have hboth : s.Shaped ∧ MapLaws es₁ s := by
      refine hs'.history (P := fun es t => t.Shaped ∧ MapLaws es t) ?_ ⟨Shaped.new, MapLaws.new⟩
      exact fun hboth hstores hstep => ⟨hboth.1.step hstep, hboth.2.step hboth.1 hstores hstep⟩
    exact hboth.2

instance (t : Registry) (op : Op) : Decidable (t.Stores op) := by
  unfold Stores
  split <;> infer_instance

/-- Two processes register names, one of them of 15 bytes, and one ends. -/
theorem mapLaws_two : ∃ es t, Run step (fun _ _ => True) new es t ∧ es.length = 4 ∧ MapLaws es t := by
  have h : (exec step Stores new [.register [0x61] 1, .register (List.replicate 15 0x62 ++ [0]) 2, .register [0x61, 0] 2,
      .unregisterPid 1]).any (fun o => o.2.length == 4) = true := by decide
  obtain ⟨⟨t, es⟩, hexec, hlen⟩ := (Option.any_eq_true _ _).1 h
  have hrun : Run step (fun _ _ => True) new es t := (run_of_exec hexec).mono fun _ _ _ => trivial
  exact ⟨es, t, hrun, eq_of_beq hlen,
    (mapLaws_iff hrun).2 (run_of_exec hexec) es [] t (List.append_nil es).symm hrun⟩

end

/-- A name that fills the buffer is accepted and not found. -/
theorem full_name_lost : ¬ ∀ es t, Run step (fun _ _ => True) new es t → MapLaws es t := by
  have h : (exec step (fun _ _ => True) new [.register (List.replicate 16 0x61) 1]).any (fun o =>
      decide (o.2 = [(.register (List.replicate 16 0x61) 1, true)]) &&
        (o.1.lookup (List.replicate 16 0x61)).isNone) = true := by decide
  obtain ⟨⟨t, es⟩, hexec, h⟩ := (Option.any_eq_true _ _).1 h
  obtain ⟨hes, hlost⟩ := Bool.and_eq_true_iff.1 h
  intro hall
  have hfound := (hall es t (run_of_exec hexec)).bound [] [] (List.replicate 16 0x61) 1 (of_decide_eq_true hes)
    (fun e he => by cases he)
  rw [Option.isNone_iff_eq_none.1 hlost] at hfound
  cases hfound

end Registry

end Rost
