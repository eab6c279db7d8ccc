import ReplayServer.Replay.Streams
import Mathlib.Data.Finset.Sort
import Mathlib.Data.List.Sort

/-!
# replay: iteration orders

A hash set or a hash map is iterated in an order that nobody knows.  An `IterOrder` is one possible
choice for all the sets of ids and of bytes, and for what `sort_unstable_by_key` leaves open; the
strategy takes it as an argument, and the theorems hold for all of them.

`IterOrder.byKey` sorts by a key; it shows that there are such orders, and runs.
-/

namespace ReplayServer

/-- the choices that the hash containers and `sort_unstable_by_key` leave open -/
structure IterOrder where
  ids : Finset Nat → List Nat
  ids_nodup : ∀ s, (ids s).Nodup
  mem_ids : ∀ s a, a ∈ ids s ↔ a ∈ s
  keys : Finset UInt8 → List UInt8
  keys_nodup : ∀ s, (keys s).Nodup
  mem_keys : ∀ s b, b ∈ keys s ↔ b ∈ s
  /-- sorts pairs of an id and its key -/
  sort : List (Nat × Nat) → List (Nat × Nat)
  sort_perm : ∀ l, (sort l).Perm l
  sort_sorted : ∀ l, (sort l).Pairwise (fun a b => a.2 ≤ b.2)

section
variable {α : Type} {k : α → Nat} (hkey : Function.Injective k)

def keyLe (key : α → Nat) (a b : α) : Prop := key a ≤ key b

instance (key : α → Nat) : DecidableRel (keyLe key) := fun a b => Nat.decLe (key a) (key b)

instance (key : α → Nat) : IsTrans α (keyLe key) := ⟨fun _ _ _ h1 h2 => Nat.le_trans h1 h2⟩

instance (key : α → Nat) : Std.Total (keyLe key) := ⟨fun a b => Nat.le_total (key a) (key b)⟩

/-- the elements of a finite set, ordered by an injective key -/
def listByKey (s : Finset α) : List α :=
  Quot.liftOn s.val (List.insertionSort (keyLe k)) (by
    intro l l' h
    refine List.Perm.eq_of_pairwise (fun a b _ _ h1 h2 => hkey (Nat.le_antisymm h1 h2))
      (List.pairwise_insertionSort _ l) (List.pairwise_insertionSort _ l') ?_
    exact ((List.perm_insertionSort _ l).trans h).trans (List.perm_insertionSort _ l').symm)

theorem coe_listByKey (s : Finset α) : (listByKey hkey s : Multiset α) = s.val := by
  obtain ⟨m, hm⟩ := s
  induction m using Quot.ind with
  | mk l => exact Quot.sound (List.perm_insertionSort (keyLe k) l)

theorem nodup_listByKey (s : Finset α) : (listByKey hkey s).Nodup := by
  rw [← Multiset.coe_nodup, coe_listByKey]
  exact s.nodup

theorem mem_listByKey (s : Finset α) (a : α) : a ∈ listByKey hkey s ↔ a ∈ s := by
  rw [← Multiset.mem_coe, coe_listByKey]
  rfl

end

namespace IterOrder

/-- ids ordered by a key, bytes in ascending order -/
def byKey {k : Nat → Nat} (hkey : Function.Injective k) : IterOrder where
  ids := listByKey hkey
  ids_nodup := nodup_listByKey hkey
  mem_ids := mem_listByKey hkey
  keys := listByKey (k := UInt8.toNat) (fun _ _ => UInt8.toNat_inj.mp)
  keys_nodup := nodup_listByKey _
  mem_keys := mem_listByKey _
  sort := List.insertionSort (keyLe Prod.snd)
  sort_perm l := List.perm_insertionSort _ l
  sort_sorted l := List.pairwise_insertionSort _ l

instance : Inhabited IterOrder := ⟨byKey (k := id) Function.injective_id⟩

end IterOrder

end ReplayServer
