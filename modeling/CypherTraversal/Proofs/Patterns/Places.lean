import CypherTraversal.Proofs.Run.Rows
import Mathlib.Data.List.Nodup
import Mathlib.Data.List.Flatten

/-! # Enumerating places

A traverser is at a place: an object, and the labels of its path. A traversal enumerates a relation
of places when it sends every row to the places that are related to its own, no two of them with one
path. -/

namespace CypherTraversal

open Run List

variable {b : Traverser → Bool} {G : Traverser → Traverser}

abbrev Place := Object × List (String × Object)

def Traverser.place (t : Traverser) : Place :=
  (t.object, t.path)

/-- What a name selects: an entry of the map that the row is at, else a label. -/
def Place.selected (p : Place) (x : String) : Option Object :=
  match p.1 with
  | .map entries => (Entries.find? x entries).or (p.2.lookup x)
  | _ => p.2.lookup x

namespace Traversal

structure Enumerates (ps : Parameters) (g : Graph) (S : Place → Prop) (f : Traversal)
    (R : Place → Place → Prop) : Prop where
  starts : f.Starts ps
  sends : ∃ F, Process.Sends g (fun t => S t.place) (f.run ps) F ∧
    ∀ t, S t.place → ((F t).map Traverser.path).Nodup ∧
      ∀ q, q ∈ (F t).map Traverser.place ↔ R t.place q

namespace Enumerates

variable {ps : Parameters} {g : Graph} {S S' : Place → Prop} {f h : Traversal}
  {R R' : Place → Place → Prop}

theorem congr (hf : f.Enumerates ps g S R) (hR : ∀ p q, S p → (R p q ↔ R' p q)) :
    f.Enumerates ps g S R' := by
  obtain ⟨F, hF, hplaces⟩ := hf.sends
  refine ⟨hf.starts, F, hF, fun t ht => ⟨(hplaces t ht).1, fun q => ?_⟩⟩
  rw [(hplaces t ht).2, hR t.place q ht]

theorem nil : Enumerates ps g S [] fun p q => q = p := by
  refine ⟨rfl, fun t => [t], .same, fun t _ => ⟨nodup_singleton _, fun q => ?_⟩⟩
  rw [map_singleton, mem_singleton]

theorem of_passes {C : Traverser → List Traverser} (hstarts : f.Starts ps)
    (hC : Process.Sends g (fun t => S t.place) (f.run ps) C) (hh : h.Passes ps g b G)
    (hpaths : ∀ t, S t.place → (((C t).filter b).map fun u => (G u).path).Nodup)
    (hplaces : ∀ t q, S t.place → ((∃ u ∈ C t, b u ∧ (G u).place = q) ↔ R t.place q)) :
    Enumerates ps g S (f ++ h) R := by
  have hsends : Process.Sends g (fun t => S t.place) ((f ++ h : Traversal).run ps)
      fun t => ((C t).filter b).map G := by
    rw [run_append hh.starts]
    exact (hC.andThen hh.sends fun _ _ _ _ => trivial).congr fun t _ => flatMap_passed (C t)
  refine ⟨hstarts.append hh.starts, _, hsends, fun t ht => ⟨?_, fun q => ?_⟩⟩
  · rw [map_map]
    exact hpaths t ht
  · rw [← hplaces t q ht, map_map]
    simp only [mem_map, mem_filter, and_assoc, Function.comp_apply]

theorem of_row (hh : h.Passes ps g b G)
    (hplaces : ∀ t q, S t.place → (b t ∧ (G t).place = q ↔ R t.place q)) :
    h.Enumerates ps g S R := by
  refine of_passes (f := []) (C := fun t => [t]) rfl .same hh (fun t _ => ?_) fun t q ht => ?_
  · cases hb : b t <;> simp [hb]
  · rw [← hplaces t q ht]
    simp

theorem append {k : Nat} (hf : f.Enumerates ps g S R) (hh : h.Enumerates ps g S' R')
    (hS : ∀ p q, S p → R p q → S' q)
    (hk : ∀ p q, S' p → R' p q → ∃ l : List (String × Object), l.length = k ∧ q.2 = l ++ p.2) :
    Enumerates ps g S (f ++ h) fun p q => ∃ m, R p m ∧ R' m q := by
  obtain ⟨F, hF, hplaces⟩ := hf.sends
  obtain ⟨G, hG, hplaces'⟩ := hh.sends
  have hkind {t : Traverser} (ht : S t.place) {u : Traverser} (hu : u ∈ F t) : S' u.place :=
    hS _ _ ht (((hplaces t ht).2 _).mp (mem_map_of_mem hu))
  refine ⟨hf.starts.append hh.starts, fun t => (F t).flatMap G, ?_, fun t ht => ⟨?_, fun q => ?_⟩⟩
  · rw [run_append hh.starts]
    exact hF.andThen hG fun t ht u hu => hkind ht hu
  · rw [map_flatMap, nodup_flatMap]
    refine ⟨fun u hu => (hplaces' u (hkind ht hu)).1, ?_⟩
    have hdistinct := pairwise_map.mp (hplaces t ht).1
    refine List.Pairwise.imp_of_mem (fun {u w} hu hw huw => ?_) hdistinct
    -- a path that both lead to would give back the path of either, by its last labels
    intro path hpath hpath'
    obtain ⟨x, hx, rfl⟩ := mem_map.mp hpath
    obtain ⟨y, hy, hxy⟩ := mem_map.mp hpath'
    obtain ⟨l, hl, hxl⟩ := hk _ _ (hkind ht hu)
      (((hplaces' u (hkind ht hu)).2 _).mp (mem_map_of_mem hx))
    obtain ⟨l', hl', hyl⟩ := hk _ _ (hkind ht hw)
      (((hplaces' w (hkind ht hw)).2 _).mp (mem_map_of_mem hy))
    have happend : l ++ u.path = l' ++ w.path := hxl.symm.trans (hxy.symm.trans hyl)
    exact huw (append_inj happend (hl.trans hl'.symm)).2
  · rw [map_flatMap, mem_flatMap]
    constructor
    · rintro ⟨u, hu, hq⟩
      exact ⟨u.place, ((hplaces t ht).2 _).mp (mem_map_of_mem hu),
        ((hplaces' u (hkind ht hu)).2 q).mp hq⟩
    · rintro ⟨m, hm, hq⟩
      obtain ⟨u, hu, rfl⟩ := mem_map.mp (((hplaces t ht).2 m).mpr hm)
      exact ⟨u, hu, ((hplaces' u (hkind ht hu)).2 q).mpr hq⟩

end Enumerates
end Traversal
end CypherTraversal
