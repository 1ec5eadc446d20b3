import Lox.Proofs.Scoping.Numbering
import Lox.Proofs.Scoping.Resolver

namespace Lox

variable {hops more : Hops} {n : NodeId}

theorem Site.getElem?_enter (site : Site) :
    (Site.enter hops site)[n]? =
      if site.node = n then site.distance?.or hops[n]? else hops[n]? := by
  unfold Site.enter
  split
  · rename_i distance hdistance
    rw [Std.TreeMap.getElem?_insert, hdistance]
    simp
  · rename_i hdistance
    simp [hdistance]

theorem getElem?_enterAll_of_notMem {sites : List Site} (h : n ∉ sites.map Site.node) :
    (sites.foldl Site.enter hops)[n]? = hops[n]? := by
  induction sites generalizing hops with
  | nil => rfl
  | cons site sites ih =>
      rw [List.map_cons, List.mem_cons, not_or] at h
      rw [List.foldl_cons, ih h.2, site.getElem?_enter, if_neg (Ne.symm h.1)]

theorem getElem?_enterAll_of_mem {sites : List Site} {site : Site} (hsite : site ∈ sites)
    (hnodup : (sites.map Site.node).Nodup) (hnone : hops[site.node]? = none) :
    (sites.foldl Site.enter hops)[site.node]? = site.distance? := by
  induction sites generalizing hops with
  | nil => cases hsite
  | cons first sites ih =>
      rw [List.map_cons, List.nodup_cons] at hnodup
      rw [List.foldl_cons]
      rcases List.mem_cons.mp hsite with rfl | hmem
      · rw [getElem?_enterAll_of_notMem hnodup.1, site.getElem?_enter, if_pos rfl, hnone,
          Option.or_none]
      · have hne : first.node ≠ site.node := by
          intro heq
          exact hnodup.1 (heq ▸ List.mem_map_of_mem hmem)
        exact ih hmem hnodup.2 (by rw [first.getElem?_enter, if_neg hne, hnone])

theorem getElem?_insertAll_of_notMem {entries : List (NodeId × Nat)}
    (h : ∀ entry ∈ entries, entry.1 ≠ n) :
    (entries.foldl (fun (all : Hops) entry => all.insert entry.1 entry.2) hops)[n]? =
      hops[n]? := by
  induction entries generalizing hops with
  | nil => rfl
  | cons entry entries ih =>
      rw [List.foldl_cons, ih fun e he => h e (List.mem_cons_of_mem _ he),
        Std.TreeMap.getElem?_insert]
      simp [h entry List.mem_cons_self]

theorem getElem?_insertAll_of_mem {entries : List (NodeId × Nat)} {distance : Nat}
    (hmem : (n, distance) ∈ entries)
    (hdistinct : entries.Pairwise fun a b => ¬compare a.1 b.1 = .eq) :
    (entries.foldl (fun (all : Hops) entry => all.insert entry.1 entry.2) hops)[n]? =
      some distance := by
  induction entries generalizing hops with
  | nil => cases hmem
  | cons entry entries ih =>
      rw [List.pairwise_cons] at hdistinct
      rw [List.foldl_cons]
      rcases List.mem_cons.mp hmem with rfl | hmem
      · have hne : ∀ e ∈ entries, e.1 ≠ n := by
          intro e he heq
          exact hdistinct.1 e he (by simp [heq])
        rw [getElem?_insertAll_of_notMem hne, Std.TreeMap.getElem?_insert_self]
      · exact ih hmem hdistinct.2

theorem getElem?_merge (hops more : Hops) (n : NodeId) :
    (hops.merge more)[n]? = more[n]?.or hops[n]? := by
  rw [Hops.merge, Std.TreeMap.foldl_eq_foldl_toList]
  cases hmore : more[n]? with
  | none =>
      refine getElem?_insertAll_of_notMem ?_
      rintro ⟨k, distance⟩ hmem rfl
      rw [Std.TreeMap.mem_toList_iff_getElem?_eq_some.mp hmem] at hmore
      cases hmore
  | some distance =>
      exact getElem?_insertAll_of_mem (Std.TreeMap.mem_toList_iff_getElem?_eq_some.mpr hmore)
        Std.TreeMap.distinct_keys_toList

end Lox
