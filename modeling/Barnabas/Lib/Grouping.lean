import Std.Data.TreeMap
import Mathlib.Data.List.Perm.Basic
import Mathlib.Order.Lattice

/-!
Lists gathered under the keys of a map.

A loop that appends each element to the list of its key keeps all of them: the map
lists what it has gathered, key by key, and one more step adds one element.
-/

namespace Barnabas.Lib

variable {κ β γ : Type} [Ord κ] [Std.TransOrd κ] [Std.LawfulEqOrd κ] [DecidableEq κ]

/-- The entries of one key. -/
theorem filter_key_toList (m : Std.TreeMap κ β) (k : κ) :
    (m.toList.filter fun e => k == e.1) = (m[k]?).toList.map (k, ·) := by
  have hmem : ∀ v, (k, v) ∈ m.toList ↔ m[k]? = some v := fun v =>
    Std.TreeMap.mem_toList_iff_getElem?_eq_some
  have hdistinct : m.toList.Pairwise fun a b => a.1 ≠ b.1 :=
    Std.TreeMap.distinct_keys_toList.imp fun h heq => h (by rw [heq]; exact Std.ReflCmp.compare_self)
  generalize m.toList = l at hmem hdistinct
  have hone : ∀ l : List (κ × β), l.Pairwise (fun a b => a.1 ≠ b.1) →
      ∀ v, (k, v) ∈ l → (l.filter fun e => k == e.1) = [(k, v)] := by
    intro l hl v hv
    induction l with
    | nil => cases hv
    | cons e l ih =>
        obtain ⟨he, hl⟩ := List.pairwise_cons.mp hl
        rcases List.mem_cons.mp hv with rfl | hv
        · have hrest : (l.filter fun e => k == e.1) = [] := by
            rw [List.filter_eq_nil_iff]
            intro e' he'
            simpa using he e' he'
          rw [List.filter_cons_of_pos (by simp), hrest]
        · rw [List.filter_cons_of_neg, ih hl hv]
          simpa using fun h => he (k, v) hv h.symm
  rcases hget : m[k]? with _ | v
  · rw [List.filter_eq_nil_iff.mpr]
    · rfl
    · rintro ⟨k', v⟩ hv hk
      rw [beq_iff_eq] at hk
      dsimp only at hk
      subst hk
      rw [(hmem v).mp hv] at hget
      cases hget
  · exact hone l hdistinct v ((hmem v).mpr hget)

/-- What a map has gathered, each element as `f` shows it. -/
def gathered (f : κ → β → γ) (m : Std.TreeMap κ (List β)) : List γ :=
  m.toList.flatMap fun e => e.2.map (f e.1)

omit [Std.TransOrd κ] [Std.LawfulEqOrd κ] [DecidableEq κ] in
theorem gathered_empty (f : κ → β → γ) : gathered f ∅ = [] := by
  have hempty : (∅ : Std.TreeMap κ (List β)).toList = [] := by
    rw [← List.isEmpty_iff, Std.TreeMap.isEmpty_toList]
    rfl
  rw [gathered, hempty, List.flatMap_nil]

/-- One more element under its key. -/
theorem gathered_insert_perm (f : κ → β → γ) (m : Std.TreeMap κ (List β)) (k : κ) (b : β) :
    (gathered f (m.insert k (m.getD k [] ++ [b]))).Perm (gathered f m ++ [f k b]) := by
  have hsplit : (gathered f m).Perm ((m.getD k []).map (f k) ++
      (m.toList.filter fun e => !(k == e.1)).flatMap fun e => e.2.map (f e.1)) := by
    have hparts := List.Perm.flatMap_right (fun e : κ × List β => e.2.map (f e.1))
      (List.filter_append_perm (fun e => k == e.1) m.toList)
    rw [List.flatMap_append, filter_key_toList] at hparts
    refine hparts.symm.trans ?_
    rw [Std.TreeMap.getD_eq_getD_getElem?]
    cases m[k]? with
    | none => exact .refl _
    | some l => simp
  have hinsert := List.Perm.flatMap_right (fun e : κ × List β => e.2.map (f e.1))
    (Std.TreeMap.toList_insert_perm (t := m) (k := k) (v := m.getD k [] ++ [b]))
  have hneg : (fun e : κ × List β => decide ¬(k == e.1) = true) = fun e => !(k == e.1) := by
    funext e
    cases k == e.1 <;> rfl
  rw [hneg] at hinsert
  refine hinsert.trans ?_
  rw [List.flatMap_cons, List.map_append, List.append_assoc]
  refine (List.perm_append_comm.append_left _).trans ?_
  rw [← List.append_assoc]
  exact hsplit.symm.append_right _

/-- The loop that gathers loses nothing. -/
theorem gathered_foldl_perm {ι : Type} (f : κ → β → γ) (key : ι → κ) (value : ι → β) (l : List ι)
    (m : Std.TreeMap κ (List β)) :
    (gathered f (l.foldl (fun m x => m.insert (key x) (m.getD (key x) [] ++ [value x])) m)).Perm
      (gathered f m ++ l.map fun x => f (key x) (value x)) := by
  induction l generalizing m with
  | nil => simp
  | cons x l ih =>
      refine (ih _).trans ?_
      refine ((gathered_insert_perm f m (key x) (value x)).append_right _).trans ?_
      simp

/-! ### Reading one key back -/

/-- What is made of the entries of a map, at one key. -/
theorem filter_flatMap_toList {m : Std.TreeMap κ β} {share : κ × β → List γ} {key : γ → κ}
    (hkey : ∀ e, ∀ x ∈ share e, key x = e.1) (k : κ) :
    (m.toList.flatMap share).filter (fun x => key x = k) =
      (m[k]?).toList.flatMap fun v => share (k, v) := by
  have hshare : ∀ e, (share e).filter (fun x => key x = k) =
      if k == e.1 then share e else [] := by
    intro e
    by_cases he : k = e.1
    · rw [if_pos (by simpa using he), List.filter_eq_self]
      intro x hx
      simpa [he] using hkey e x hx
    · rw [if_neg (by simpa using he), List.filter_eq_nil_iff]
      intro x hx
      rw [hkey e x hx]
      simpa using Ne.symm he
  have hentries : ∀ l : List (κ × β), (l.flatMap fun e => if k == e.1 then share e else []) =
      (l.filter fun e => k == e.1).flatMap share := by
    intro l
    induction l with
    | nil => rfl
    | cons e l ih =>
        rw [List.flatMap_cons, List.filter_cons, ih]
        split
        · rfl
        · rfl
  rw [List.filter_flatMap]
  simp only [hshare]
  rw [hentries, filter_key_toList, List.flatMap_map]

section Keyed

variable (f : κ → β → γ) (key : γ → κ) (hkey : ∀ k b, key (f k b) = k)

include hkey

theorem filter_gathered (m : Std.TreeMap κ (List β)) (k : κ) :
    (gathered f m).filter (fun x => key x = k) = (m.getD k []).map (f k) := by
  have hshare : ∀ e : κ × List β, ∀ x ∈ e.2.map (f e.1), key x = e.1 := by
    intro e x hx
    obtain ⟨b, -, rfl⟩ := List.mem_map.mp hx
    exact hkey e.1 b
  rw [gathered, filter_flatMap_toList hshare, Std.TreeMap.getD_eq_getD_getElem?]
  cases m[k]? with
  | none => rfl
  | some l => simp

omit [DecidableEq κ] in
theorem pairwise_gathered (m : Std.TreeMap κ (List β)) :
    (gathered f m).Pairwise fun a b => (compare (key a) (key b)).isLE := by
  rw [gathered, List.pairwise_flatMap]
  constructor
  · rintro e -
    rw [List.pairwise_map]
    apply List.pairwise_of_forall
    intro b b'
    have hsame : compare e.1 e.1 = .eq := Std.ReflCmp.compare_self
    rw [hkey, hkey, hsame]
    rfl
  · refine Std.TreeMap.ordered_keys_toList.imp fun {e e'} hlt => ?_
    intro a ha b hb
    obtain ⟨x, -, rfl⟩ := List.mem_map.mp ha
    obtain ⟨y, -, rfl⟩ := List.mem_map.mp hb
    rw [hkey, hkey, hlt]
    rfl

end Keyed

/-- The loop that gathers: what is under a key is what came with it, in the order it
came. -/
theorem getD_foldl_gather {ι : Type} (key : ι → κ) (value : ι → β) (l : List ι)
    (m : Std.TreeMap κ (List β)) (k : κ) :
    (l.foldl (fun m x => m.insert (key x) (m.getD (key x) [] ++ [value x])) m).getD k [] =
      m.getD k [] ++ (l.filter fun x => key x = k).map value := by
  induction l generalizing m with
  | nil => simp
  | cons x l ih =>
      rw [List.foldl_cons, ih, Std.TreeMap.getD_insert, List.filter_cons]
      by_cases hx : key x = k
      · subst hx
        rw [if_pos Std.ReflCmp.compare_self, if_pos (by simp), List.map_cons, List.append_assoc]
        rfl
      · rw [if_neg (by rw [Std.LawfulEqCmp.compare_eq_iff_eq]; exact hx), if_neg (by simpa using hx)]

/-- Lists in the order of their keys are told by what they hold of each key. -/
theorem eq_of_pairwise_of_filter_eq {ι κ : Type} [LinearOrder κ] {key : ι → κ} {l l' : List ι}
    (h : l.Pairwise (key · ≤ key ·)) (h' : l'.Pairwise (key · ≤ key ·))
    (hfilter : ∀ k, l.filter (fun x => key x = k) = l'.filter (fun x => key x = k)) : l = l' := by
  have hmem : ∀ x, x ∈ l ↔ x ∈ l' := by
    intro x
    have hx : x ∈ l.filter (fun y => key y = key x) ↔ x ∈ l'.filter (fun y => key y = key x) := by
      rw [hfilter]
    simpa using hx
  induction l generalizing l' with
  | nil => exact (List.eq_nil_iff_forall_not_mem.mpr fun x hx => by simpa using (hmem x).mpr hx).symm
  | cons a l ih =>
      cases l' with
      | nil => simpa using hmem a
      | cons b l' =>
          obtain ⟨ha, hl⟩ := List.pairwise_cons.mp h
          obtain ⟨hb, hl'⟩ := List.pairwise_cons.mp h'
          have hab : key a = key b := by
            apply le_antisymm
            · rcases List.mem_cons.mp ((hmem b).mpr List.mem_cons_self) with rfl | hin
              · exact le_rfl
              · exact ha b hin
            · rcases List.mem_cons.mp ((hmem a).mp List.mem_cons_self) with rfl | hin
              · exact le_rfl
              · exact hb a hin
          have hhead := hfilter (key a)
          rw [List.filter_cons_of_pos (by simp), List.filter_cons_of_pos (by simp [hab])] at hhead
          obtain ⟨rfl, -⟩ := List.cons.inj hhead
          have hrest : ∀ k, l.filter (fun x => key x = k) = l'.filter (fun x => key x = k) := by
            intro k
            have hk := hfilter k
            rw [List.filter_cons, List.filter_cons] at hk
            split at hk
            · exact (List.cons.inj hk).2
            · exact hk
          rw [ih hl hl' hrest fun x => by
            have hx : x ∈ l.filter (fun y => key y = key x) ↔
                x ∈ l'.filter (fun y => key y = key x) := by rw [hrest]
            simpa using hx]

end Barnabas.Lib
