import Mathlib

/-!
# One-to-one coverings of lists

`Covers r cs ds` gives every member of `cs` a partner of its own in `ds`.
For a partial equivalence the partners can be exchanged: whichever partner
of the first member is taken away, the others are still covered
(`Covers.erase`). Hence a greedy search, which takes the first partner it
meets, succeeds where there is a covering at all.
-/

namespace MiniDuck

variable {α : Type} {r : α → α → Prop}

/-- Every member of `cs` is related to a member of `ds` of its own. -/
def Covers (r : α → α → Prop) (cs ds : List α) : Prop :=
  ∃ es rest, ds.Perm (es ++ rest) ∧ List.Forall₂ r es cs

variable {as : List α}

theorem forall₂_trans (htrans : ∀ a b c, r a b → r b c → r a c) {bs cs : List α}
    (h : List.Forall₂ r as bs) (h' : List.Forall₂ r bs cs) : List.Forall₂ r as cs := by
  induction h generalizing cs with
  | nil => exact h'
  | cons hab _ ih =>
      cases h' with
      | cons hbc hrest => exact .cons (htrans _ _ _ hab hbc) (ih hrest)

theorem exists_right_of_mem {β : Type} {r : α → β → Prop} {bs : List β} {a : α}
    (h : List.Forall₂ r as bs) (ha : a ∈ as) : ∃ b ∈ bs, r a b := by
  induction h with
  | nil => cases ha
  | cons hab _ ih =>
      rcases List.mem_cons.mp ha with rfl | ha
      · exact ⟨_, List.mem_cons_self .., hab⟩
      · obtain ⟨b, hb, hrel⟩ := ih ha
        exact ⟨b, List.mem_cons_of_mem _ hb, hrel⟩

theorem exists_forall₂ {β : Type} {r : α → β → Prop} (h : ∀ a ∈ as, ∃ b, r a b) :
    ∃ bs, List.Forall₂ r as bs := by
  induction as with
  | nil => exact ⟨[], .nil⟩
  | cons a as ih =>
      obtain ⟨⟨b, hb⟩, hrest⟩ := List.forall_mem_cons.mp h
      obtain ⟨bs, hbs⟩ := ih hrest
      exact ⟨b :: bs, .cons hb hbs⟩

namespace Covers

variable {ds : List α}

theorem nil (ds : List α) : Covers r [] ds := ⟨[], ds, .refl ds, .nil⟩

variable {cs ds : List α}

theorem mono {r' : α → α → Prop} (h : Covers r cs ds) (himp : ∀ a b, r a b → r' a b) :
    Covers r' cs ds := by
  obtain ⟨es, rest, hperm, hes⟩ := h
  exact ⟨es, rest, hperm, hes.imp himp⟩

theorem exists_mem {c : α} (h : Covers r (c :: cs) ds) : ∃ d ∈ ds, r d c := by
  obtain ⟨es, rest, hperm, hes⟩ := h
  cases hes with
  | cons hd _ => exact ⟨_, hperm.mem_iff.mpr (List.mem_cons_self ..), hd⟩

theorem length_le (h : Covers r cs ds) : cs.length ≤ ds.length := by
  obtain ⟨es, rest, hperm, hes⟩ := h
  rw [hperm.length_eq, List.length_append, ← hes.length_eq]
  omega

/-- Replace a member of the partners by one that is related to the same members. -/
theorem replace {es : List α} {d f : α} (h : List.Forall₂ r es cs) (hf : f ∈ es)
    (hd : ∀ c, r f c → r d c) : ∃ es', (f :: es').Perm (d :: es) ∧ List.Forall₂ r es' cs := by
  induction h with
  | nil => cases hf
  | @cons a c as cs ha has ih =>
      rcases List.mem_cons.mp hf with rfl | hf
      · exact ⟨d :: as, .swap d f as, .cons (hd c ha) has⟩
      · obtain ⟨as', hperm, has'⟩ := ih hf
        refine ⟨a :: as', ?_, .cons ha has'⟩
        exact (List.Perm.swap a f as').trans ((hperm.cons a).trans (.swap d a as))

theorem erase (hsymm : ∀ a b, r a b → r b a) (htrans : ∀ a b c, r a b → r b c → r a c) {c f : α}
    {ds' : List α} (h : Covers r (c :: cs) ds) (hf : r f c) (hperm : ds.Perm (f :: ds')) :
    Covers r cs ds' := by
  obtain ⟨es, rest, hperm', hes⟩ := h
  cases hes with
  | @cons d _ es _ hd hes =>
      have hswap : (f :: ds').Perm (d :: (es ++ rest)) := hperm.symm.trans hperm'
      rcases List.mem_cons.mp (hswap.mem_iff.mp (List.mem_cons_self ..)) with rfl | hmem
      · exact ⟨es, rest, hswap.cons_inv, hes⟩
      · rcases List.mem_append.mp hmem with hmem | hmem
        · have hpartner (x : α) (hx : r f x) : r d x :=
            htrans d c x hd (htrans c f x (hsymm f c hf) hx)
          obtain ⟨es', hperm'', hes'⟩ := replace hes hmem hpartner
          have hrest : (f :: ds').Perm (f :: (es' ++ rest)) :=
            hswap.trans (hperm''.symm.append_right rest)
          exact ⟨es', rest, hrest.cons_inv, hes'⟩
        · obtain ⟨before, after, rfl⟩ := List.append_of_mem hmem
          refine ⟨es, d :: (before ++ after), ?_, hes⟩
          have hmiddle : (d :: (es ++ (before ++ f :: after))).Perm
              (f :: (es ++ d :: (before ++ after))) := by
            refine List.Perm.trans ?_ (List.perm_middle.cons f).symm
            refine List.Perm.trans ?_ (List.Perm.swap f d _)
            refine List.Perm.cons d ?_
            rw [← List.append_assoc, ← List.append_assoc]
            exact List.perm_middle
          exact (hswap.trans hmiddle).cons_inv

/-- Members that are unrelated to each other have partners of their own. -/
theorem of_pairwise (hsymm : ∀ a b, r a b → r b a) (htrans : ∀ a b c, r a b → r b c → r a c)
    (hcs : cs.Pairwise fun a b => ¬ r a b) (hds : ∀ c ∈ cs, ∃ d ∈ ds, r d c) : Covers r cs ds := by
  induction cs generalizing ds with
  | nil => exact Covers.nil ds
  | cons c cs ih =>
      obtain ⟨hc, hcs⟩ := List.pairwise_cons.mp hcs
      obtain ⟨d, hd, hdc⟩ := hds c (List.mem_cons_self ..)
      obtain ⟨before, after, rfl⟩ := List.append_of_mem hd
      have hothers : ∀ x ∈ cs, ∃ y ∈ before ++ after, r y x := by
        intro x hx
        obtain ⟨y, hy, hyx⟩ := hds x (List.mem_cons_of_mem c hx)
        rcases List.mem_cons.mp (List.perm_middle.mem_iff.mp hy) with rfl | hy
        · exact absurd (htrans c y x (hsymm y c hdc) hyx) (hc x hx)
        · exact ⟨y, hy, hyx⟩
      obtain ⟨es, rest, hperm, hes⟩ := ih hcs hothers
      exact ⟨d :: es, rest, List.perm_middle.trans (hperm.cons d), .cons hdc hes⟩

theorem refl (hrefl : ∀ c ∈ ds, r c c) : Covers r ds ds :=
  ⟨ds, [], .of_eq (List.append_nil ds).symm, List.forall₂_same.mpr hrefl⟩

theorem symm (hsymm : ∀ a b, r a b → r b a) (h : Covers r cs ds) (hlength : cs.length = ds.length) :
    Covers r ds cs := by
  obtain ⟨es, rest, hperm, hes⟩ := h
  obtain rfl : rest = [] := by
    have hcount := hperm.length_eq
    rw [List.length_append, hes.length_eq] at hcount
    exact List.length_eq_zero_iff.mp (by omega)
  rw [List.append_nil] at hperm
  have hback : List.Forall₂ r cs es := hes.flip.imp fun a b hab => hsymm b a hab
  obtain ⟨fs, hfs, hcover⟩ : Relation.Comp List.Perm (List.Forall₂ r) cs ds := by
    rw [← List.forall₂_comp_perm_eq_perm_comp_forall₂]
    exact ⟨es, hback, hperm.symm⟩
  exact ⟨fs, [], by rwa [List.append_nil], hcover⟩

theorem trans (htrans : ∀ a b c, r a b → r b c → r a c) {es : List α} (h : Covers r cs ds)
    (h' : Covers r ds es) : Covers r cs es := by
  obtain ⟨xs, rest, hxs, hcs⟩ := h
  obtain ⟨ys, rest', hys, hds⟩ := h'
  obtain ⟨zs, hzs, hcover⟩ : Relation.Comp List.Perm (List.Forall₂ r) ys (xs ++ rest) := by
    rw [← List.forall₂_comp_perm_eq_perm_comp_forall₂]
    exact ⟨ds, hds, hxs⟩
  have htake := List.forall₂_take_append zs xs rest hcover
  refine ⟨zs.take xs.length, zs.drop xs.length ++ rest', ?_, ?_⟩
  · rw [← List.append_assoc, List.take_append_drop]
    exact hys.trans (hzs.append_right rest')
  · exact forall₂_trans htrans htake hcs

end Covers

end MiniDuck
