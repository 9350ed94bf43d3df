import Mathlib.Data.List.Nodup
import Mathlib.Data.List.Perm.Basic
import Mathlib.Algebra.BigOperators.Group.List.Basic
import Reactor.Proofs.Network.Serve

/-!
# What is held from outside lives

A place that the host, the runtime or an open computation holds is among those that live
(`World.liveness_of_mem_roots`, `World.liveness_of_mem_held`).

Places are released one after another. The invariant (`Accounted`) says that a place is still held as
often as it was held from outside and by all records, less the times that the released ones held it. No
place is released twice, so those times are no more than the times that the records held it, and what
was held from outside is left.
-/

namespace Reactor

namespace Holders

@[simp] theorem count_empty (place : Place) : Holders.count {} place = 0 := by
  simp [Holders.count]

theorem count_insert (holders : Holders) (place other : Place) (n : Nat) :
    Holders.count (holders.insert place n) other = if place = other then n else holders.count other := by
  unfold Holders.count
  rw [Std.HashMap.getD_insert]
  by_cases h : place = other <;> simp [h]

theorem count_addAll (holders : Holders) (places : List Place) (place : Place) :
    (holders.addAll places).count place = holders.count place + places.count place := by
  unfold addAll
  induction places generalizing holders with
  | nil => rfl
  | cons first rest ih =>
    rw [List.foldl_cons, ih, count_insert, List.count_cons]
    by_cases h : first = place
    · subst h
      simp only [if_true, beq_self_eq_true]
      omega
    · simp [h]

theorem count_foldl_addAll (f : Place → List Place) (holders : Holders) (places : List Place)
    (place : Place) :
    (places.foldl (fun holders place => holders.addAll (f place)) holders).count place =
      holders.count place + (places.flatMap f).count place := by
  induction places generalizing holders with
  | nil => rfl
  | cons first rest ih =>
    rw [List.foldl_cons, ih, count_addAll, List.flatMap_cons, List.count_append, Nat.add_assoc]

end Holders

namespace World

variable {w : World} {held : List Place} {place : Place}

/-- How often a place is held, from outside and by the records. -/
def total (w : World) (held : List Place) (place : Place) : Nat :=
  (held ++ w.roots).count place + (w.places.flatMap w.held).count place

theorem count_holders (w : World) (held : List Place) (place : Place) :
    (w.holders held).count place = w.total held place := by
  unfold holders total
  rw [Holders.count_foldl_addAll, Holders.count_addAll, Holders.count_addAll, Holders.count_empty,
    Nat.zero_add, List.count_append]

theorem getD_of_le {α : Type} (xs : Array α) (d : α) {i : Nat} (h : xs.size ≤ i) :
    xs.getD i d = d := by
  simp [Array.getD, Nat.not_lt.2 h]

/-- A place without a record holds nothing. -/
theorem held_eq_nil (h : place ∉ w.places) : w.held place = [] := by
  simp only [places, List.mem_append, List.mem_map, List.mem_range, not_or, not_exists, not_and] at h
  obtain ⟨⟨⟨⟨⟨hscope, hvariable⟩, hlambda⟩, hqueue⟩, hcell⟩, hfork⟩ := h
  match place with
  | .scope id =>
    rw [World.held, scopeAt, getD_of_le _ _ (Nat.le_of_not_lt fun hlt => hscope id.index hlt rfl)]
    rfl
  | .variable id =>
    rw [World.held, variableAt, getD_of_le _ _ (Nat.le_of_not_lt fun hlt => hvariable id.index hlt rfl)]
    rfl
  | .lambda id => exact if_neg fun hlt => hlambda id.index hlt rfl
  | .queue id =>
    rw [World.held, queueAt, getD_of_le _ _ (Nat.le_of_not_lt fun hlt => hqueue id.index hlt rfl)]
    rfl
  | .cell id =>
    rw [World.held, cellAt, getD_of_le _ _ (Nat.le_of_not_lt fun hlt => hcell id.index hlt rfl)]
    rfl
  | .fork id =>
    rw [World.held, forkAt, getD_of_le _ _ (Nat.le_of_not_lt fun hlt => hfork id.index hlt rfl)]
    rfl

/-- No place is listed twice. -/
theorem nodup_places (w : World) : w.places.Nodup := by
  have numbered (n : Nat) (f : Nat → Place) (hf : Function.Injective f) :
      ((List.range n).map f).Nodup :=
    List.nodup_range.map hf
  unfold places
  simp only [List.nodup_append, List.mem_append, List.mem_map, ne_eq]
  refine ⟨⟨⟨⟨⟨?_, ?_, ?_⟩, ?_, ?_⟩, ?_, ?_⟩, ?_, ?_⟩, ?_, ?_⟩
  all_goals first
    | exact numbered _ _ fun i j h => by cases h; rfl
    | grind

/-- Places of which none is released twice hold no more than all records. -/
theorem count_flatMap_le (f : Place → List Place) {released places : List Place}
    (hnodup : released.Nodup) (hf : ∀ p ∈ released, p ∉ places → f p = []) :
    (released.flatMap f).count place ≤ (places.flatMap f).count place := by
  induction released generalizing places with
  | nil => exact Nat.zero_le _
  | cons first rest ih =>
    obtain ⟨hfirst, hrest⟩ := List.nodup_cons.1 hnodup
    have later {p : Place} (hp : p ∈ rest) (hq : p ∉ places.erase first) : f p = [] := by
      refine hf p (List.mem_cons_of_mem _ hp) fun hmem => hq ?_
      exact (List.mem_erase_of_ne (ne_of_mem_of_not_mem hp hfirst)).2 hmem
    rw [List.flatMap_cons, List.count_append]
    by_cases hmem : first ∈ places
    · have split : (places.flatMap f).count place =
          (f first).count place + ((places.erase first).flatMap f).count place := by
        rw [((List.perm_cons_erase hmem).flatMap_right f).count_eq, List.flatMap_cons, List.count_append]
      have := ih hrest fun p hp => later hp
      omega
    · rw [hf first List.mem_cons_self hmem, List.count_nil, Nat.zero_add]
      refine ih hrest fun p hp hq => later hp fun h => hq (List.mem_of_mem_erase h)

/-- What is known while places are released: those that have been, those that are to be, and those that
the last one holds and that are still to be let go. -/
structure Accounted (w : World) (held : List Place) (released pending left : List Place)
    (holders : Holders) : Prop where
  nodup : (released ++ pending).Nodup
  zero : ∀ place ∈ released ++ pending, holders.count place = 0
  total (place : Place) :
    w.total held place + left.count place ≤ holders.count place + (released.flatMap w.held).count place

namespace Accounted

variable {released pending left : List Place} {holders : Holders}

/-- What is held from outside is held still. -/
theorem outside_le (h : Accounted w held released pending left holders) (place : Place) :
    (held ++ w.roots).count place + left.count place ≤ holders.count place := by
  have htotal := h.total place
  have hle : (released.flatMap w.held).count place ≤ (w.places.flatMap w.held).count place :=
    count_flatMap_le w.held (List.nodup_append.1 h.nodup).1 fun p _ hp => held_eq_nil hp
  unfold World.total at htotal
  omega

/-- One more of the places that the last released one holds is let go. -/
theorem drop {place : Place} (h : Accounted w held released pending (place :: left) holders) :
    Accounted w held released
      (if holders.count place - 1 = 0 then place :: pending else pending) left
      (holders.insert place (holders.count place - 1)) := by
  -- it is still held, so it is none of those that have been released or are to be
  have hpos : 0 < holders.count place := by
    have := h.outside_le place
    rw [List.count_cons_self] at this
    omega
  have hnew : place ∉ released ++ pending := fun hmem => absurd (h.zero place hmem) (Nat.ne_of_gt hpos)
  have same {p : Place} (hp : p ∈ released ++ pending) :
      Holders.count (holders.insert place (holders.count place - 1)) p = 0 := by
    rw [Holders.count_insert, if_neg (ne_of_mem_of_not_mem hp hnew).symm]
    exact h.zero p hp
  have total (p : Place) : w.total held p + left.count p ≤
      Holders.count (holders.insert place (holders.count place - 1)) p +
        (released.flatMap w.held).count p := by
    have := h.total p
    rw [Holders.count_insert]
    by_cases hp : place = p
    · subst hp
      rw [List.count_cons_self] at this
      rw [if_pos rfl]
      omega
    · rw [List.count_cons_of_ne hp] at this
      rw [if_neg hp]
      exact this
  split
  · rename_i hzero
    have swap : (released ++ place :: pending).Perm (place :: (released ++ pending)) :=
      List.perm_middle
    refine ⟨swap.nodup_iff.2 (List.nodup_cons.2 ⟨hnew, h.nodup⟩), fun p hp => ?_, total⟩
    rcases List.mem_cons.1 (swap.mem_iff.1 hp) with rfl | hp
    · rw [Holders.count_insert, if_pos rfl]
      exact hzero
    · exact same hp
  · exact ⟨h.nodup, fun p hp => same hp, total⟩

theorem dropAll (h : Accounted w held released pending left holders) :
    Accounted w held released (holders.dropAll pending left).2 [] (holders.dropAll pending left).1 := by
  induction left generalizing holders pending with
  | nil => exact h
  | cons place left ih => exact ih h.drop

/-- The next place is released. -/
theorem next {place : Place} (h : Accounted w held released (place :: pending) [] holders) :
    Accounted w held (place :: released) pending (w.held place) holders := by
  have swap : (released ++ place :: pending).Perm (place :: released ++ pending) := List.perm_middle
  refine ⟨swap.nodup_iff.1 h.nodup, fun p hp => h.zero p (swap.mem_iff.2 hp), fun p => ?_⟩
  have := h.total p
  rw [List.flatMap_cons, List.count_append]
  rw [List.count_nil] at this
  omega

end Accounted

theorem outside_le_release {released pending : List Place} {holders : Holders} (steps : Nat)
    (h : Accounted w held released pending [] holders) (place : Place) :
    (held ++ w.roots).count place ≤ (w.release steps holders pending).count place := by
  induction steps generalizing released pending holders with
  | zero => exact h.outside_le place
  | succ steps ih =>
    cases pending with
    | nil => exact h.outside_le place
    | cons first pending => exact ih h.next.dropAll

/-- A place lives at least as often as it is held from outside. -/
theorem outside_le_liveness (w : World) (held : List Place) (place : Place) :
    (held ++ w.roots).count place ≤ (w.liveness held).count place := by
  have begun : Accounted w held [] (w.places.filter fun place => (w.holders held).count place = 0) []
      (w.holders held) := by
    refine ⟨w.nodup_places.filter _, fun p hp => of_decide_eq_true (List.mem_filter.1 hp).2, fun p => ?_⟩
    rw [count_holders]
    exact Nat.le_refl _
  exact outside_le_release _ begun place

theorem hasLambda_liveness {id : LambdaId} (h : Place.lambda id ∈ held ++ w.roots) :
    (w.liveness held).hasLambda id = true := by
  have hpos := List.count_pos_iff.2 h
  have hle := outside_le_liveness w held (.lambda id)
  unfold Holders.hasLambda
  simp only [bne_iff_ne]
  omega

/-- What the host holds lives. -/
theorem hasLambda_of_held {id : LambdaId} (h : Place.lambda id ∈ entriesPlaces w.desk.registers)
    (held : List Place) : (w.liveness held).hasLambda id = true := by
  refine hasLambda_liveness (List.mem_append_right _ ?_)
  simp only [World.roots, heldByDesk, List.mem_append]
  exact .inl (.inl (.inl (.inl (.inl (.inl (.inl h))))))

end World

end Reactor
