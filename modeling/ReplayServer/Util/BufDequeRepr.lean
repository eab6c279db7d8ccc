import ReplayServer.Util.BufDeque

/-!
# util: what a `BufDeque` stands for

`b.Repr data`: `data` is everything that was ever written to `b`, and `b` still holds every byte
of it from `b.windowStart` on.

* `Repr.discard`      discarding moves the low-water mark and changes nothing else;
* `Repr.appendSome`   a write takes at least one byte and appends what it takes;
* `Repr.writeAll`     `write_all` appends its buffer, and `Repr.writeChunks` a list of them;
* `Repr.getChunk`     a chunk runs to the next chunk edge or to the end of the data.
-/

set_option linter.unusedSimpArgs false

namespace ReplayServer
open Fallible

/-- the chunk that holds position `p` ends here -/
def chunkEdge (p : Nat) : Nat := (p / chunkSize + 1) * chunkSize

theorem lt_chunkEdge (p : Nat) : p < chunkEdge p := by
  unfold chunkEdge chunkSize
  omega

namespace BufDeque

structure Repr (b : BufDeque) (data : List UInt8) : Prop where
  len : b.windowEnd = data.length
  chunks : b.chunks.length = (data.length + chunkSize - 1) / chunkSize - b.discardedChunks
  byte : ∀ p, b.windowStart ≤ p → p < data.length →
    ∃ c, b.chunks[p / chunkSize - b.discardedChunks]? = some c ∧ data[p]? = some (c (Fin.ofNat _ p))

theorem Repr.new : Repr new [] := by
  refine ⟨rfl, rfl, ?_⟩
  intro p _ hp
  exact absurd hp (Nat.not_lt_zero p)

/-! ## discarding -/

theorem discardLoop_eq (d : Nat) (cs : List Chunk) (k : Nat) :
    discardLoop d cs k = (cs.drop (d - k), k + min (d - k) cs.length) := by
  induction cs generalizing k with
  | nil => simp [discardLoop]
  | cons c cs ih =>
    unfold discardLoop
    by_cases h : k < d
    · have e : d - k = (d - (k + 1)) + 1 := by omega
      rw [if_pos h, ih, e, List.drop_succ_cons, List.length_cons]
      congr 1
      omega
    · have e : d - k = 0 := by omega
      rw [if_neg h, e]
      simp

theorem discard_discardedChunks (b : BufDeque) (u : Nat) :
    (b.discard u).discardedChunks = max (u / chunkSize) b.discardedChunks := by
  unfold discard
  simp only [discardLoop_eq]
  show max (u / chunkSize) (b.discardedChunks + min (u / chunkSize - b.discardedChunks) _) = _
  omega

theorem discard_chunks (b : BufDeque) (u : Nat) :
    (b.discard u).chunks = b.chunks.drop (u / chunkSize - b.discardedChunks) := by
  unfold discard
  simp only [discardLoop_eq]

theorem Repr.discard {b : BufDeque} {data : List UInt8} (h : b.Repr data) (u : Nat) :
    (b.discard u).Repr data := by
  have hd := discard_discardedChunks b u
  have hc := discard_chunks b u
  refine ⟨h.len, ?_, ?_⟩
  · rw [hc, hd, List.length_drop, h.chunks]
    omega
  · intro p hp hlt
    unfold windowStart at hp
    rw [hd] at hp
    have hq : max (u / chunkSize) b.discardedChunks ≤ p / chunkSize :=
      (Nat.le_div_iff_mul_le chunkSize_pos).mpr hp
    have hp' : b.windowStart ≤ p :=
      le_trans (Nat.mul_le_mul_right _ (le_max_right _ _)) hp
    obtain ⟨c, hcc, hb⟩ := h.byte p hp' hlt
    refine ⟨c, ?_, hb⟩
    rw [hc, hd, List.getElem?_drop, ← hcc]
    congr 1
    omega

/-! ## writing -/

/-- bytes that fall below the low-water mark are only counted -/
theorem Repr.skip {b : BufDeque} {data : List UInt8} (h : b.Repr data) (buf : List UInt8) (s : Nat)
    (hs : s ≤ buf.length) (hw : s = 0 ∨ data.length + s ≤ b.windowStart) :
    Repr { b with windowEnd := b.windowEnd + s } (data ++ buf.take s) := by
  have hlen : (data ++ buf.take s).length = data.length + s := by
    rw [List.length_append, List.length_take]
    omega
  rcases hw with rfl | hw
  · rw [List.take_zero, List.append_nil]
    exact h
  · refine ⟨by rw [hlen, ← h.len], ?_, ?_⟩
    · show b.chunks.length = _
      have hc := h.chunks
      rw [hlen]
      unfold windowStart at hw
      unfold chunkSize at hc hw ⊢
      show _ = _ - b.discardedChunks
      omega
    · intro p hp hlt
      rw [hlen] at hlt
      exact absurd hw (by change b.windowStart ≤ p at hp; omega)

/-- `pre` are the full chunks in front of the one that receives the next byte -/
theorem Repr.getLastChunk {b : BufDeque} {data : List UInt8} (h : b.Repr data)
    (hw : b.windowStart ≤ b.windowEnd) :
    ∃ pre c, b.getLastChunk = .ok ({ b with chunks := pre ++ [c] }, c) ∧
      pre.length = data.length / chunkSize - b.discardedChunks ∧
      ∀ p, b.windowStart ≤ p → p < data.length →
        ∃ c', (pre ++ [c])[p / chunkSize - b.discardedChunks]? = some c' ∧
          data[p]? = some (c' (Fin.ofNat _ p)) := by
  have hc := h.chunks
  have hl := h.len
  have hws : b.windowStart = b.discardedChunks * chunkSize := rfl
  have hsize : b.windowSize = .ok (b.windowEnd - b.windowStart) := by
    unfold windowSize
    rw [assertThat_true hw]
    rfl
  by_cases hfull : b.windowEnd - b.windowStart = b.chunks.length * chunkSize
  · have hno : b.noSpaceInLastChunk = .ok true := by
      unfold noSpaceInLastChunk
      rw [hsize]
      simp [hfull]
    refine ⟨b.chunks, Chunk.zero, ?_, ?_, ?_⟩
    · unfold BufDeque.getLastChunk
      rw [hno]
      simp
    · unfold chunkSize at *
      omega
    · intro p hp hlt
      obtain ⟨c', hc', hb⟩ := h.byte p hp hlt
      refine ⟨c', ?_, hb⟩
      rw [List.getElem?_append_left (List.getElem?_eq_some_iff.mp hc').1]
      exact hc'
  · have hno : b.noSpaceInLastChunk = .ok false := by
      unfold noSpaceInLastChunk
      rw [hsize]
      simp [hfull]
    have hpos : b.chunks ≠ [] := by
      intro he
      rw [he, List.length_nil] at hc hfull
      unfold chunkSize at *
      omega
    have hsplit : b.chunks.dropLast ++ [b.chunks.getLast hpos] = b.chunks :=
      List.dropLast_append_getLast hpos
    refine ⟨b.chunks.dropLast, b.chunks.getLast hpos, ?_, ?_, ?_⟩
    · unfold BufDeque.getLastChunk
      rw [hno, hsplit]
      simp [List.getLast?_eq_getLast_of_ne_nil hpos]
    · rw [List.length_dropLast]
      unfold chunkSize at *
      omega
    · rw [hsplit]
      exact h.byte

/-- a write does not touch what lies before its offset -/
theorem Chunk.write_before (c : Chunk) {offset : Nat} (buf : List UInt8) (i : Fin chunkSize)
    (h : i.val < offset) : c.write offset buf i = c i :=
  if_neg (Nat.not_le.mpr h)

/-- and puts the bytes of the buffer behind it -/
theorem Chunk.write_at (c : Chunk) {offset : Nat} (buf : List UInt8) (i : Fin chunkSize)
    (h : offset ≤ i.val) (hlt : i.val - offset < buf.length) :
    buf[i.val - offset]? = some (c.write offset buf i) := by
  unfold Chunk.write
  rw [if_pos h, List.getElem?_eq_getElem hlt, Option.getD_some]

/-- a byte of the chunk that is written behind the end of the data -/
theorem Chunk.write_byte (c : Chunk) {data buf : List UInt8} {w p : Nat}
    (hw : w ≤ buf.length) (hp : p < data.length + w)
    (hq : p / chunkSize = data.length / chunkSize)
    (hold : p < data.length → data[p]? = some (c (Fin.ofNat _ p))) :
    (data ++ buf.take w)[p]? =
      some (c.write (data.length % chunkSize) buf (Fin.ofNat _ p)) := by
  have hval : (Fin.ofNat chunkSize p).val = p % chunkSize := rfl
  by_cases hlt : p < data.length
  · have hlo : p % chunkSize < data.length % chunkSize := by
      unfold chunkSize at *
      omega
    rw [Chunk.write_before c buf (Fin.ofNat _ p) (by rw [hval]; exact hlo),
      List.getElem?_append_left hlt]
    exact hold hlt
  · have hhi : data.length % chunkSize ≤ p % chunkSize := by
      unfold chunkSize at *
      omega
    have hidx : p % chunkSize - data.length % chunkSize = p - data.length := by
      unfold chunkSize at *
      omega
    have hat := Chunk.write_at c buf (Fin.ofNat _ p) hhi (by rw [hval, hidx]; omega)
    rw [hval, hidx] at hat
    rw [List.getElem?_append_right (by omega), List.getElem?_take, if_pos (by omega)]
    exact hat

/-- the last chunk takes the bytes behind the end of the data, and no other chunk is touched -/
theorem Repr.writeChunk {b : BufDeque} {data : List UInt8} (h : b.Repr data)
    (hws : b.windowStart ≤ b.windowEnd) {buf : List UInt8} (hbuf : buf ≠ []) {w : Nat}
    (hw : w = min (chunkSize - b.windowEnd % chunkSize) buf.length) {pre : List Chunk} {c : Chunk}
    (hplen : pre.length = data.length / chunkSize - b.discardedChunks)
    (hbyte : ∀ p, b.windowStart ≤ p → p < data.length →
      ∃ c', (pre ++ [c])[p / chunkSize - b.discardedChunks]? = some c' ∧
        data[p]? = some (c' (Fin.ofNat _ p))) :
    Repr { b with chunks := pre ++ [c.write (b.windowEnd % chunkSize) buf],
                  windowEnd := b.windowEnd + w } (data ++ buf.take w) := by
  have hl := h.len
  rw [hl] at hw ⊢
  have hpos : 0 < buf.length := List.length_pos_of_ne_nil hbuf
  have hmod : data.length % chunkSize < chunkSize := Nat.mod_lt _ chunkSize_pos
  have hfit : data.length % chunkSize + w ≤ chunkSize := by omega
  have hw0 : 0 < w := by omega
  have hlen : (data ++ buf.take w).length = data.length + w := by
    rw [List.length_append, List.length_take]
    omega
  refine ⟨hlen.symm, ?_, ?_⟩
  · rw [hlen, List.length_append, List.length_singleton, hplen]
    show _ = _ - b.discardedChunks
    unfold BufDeque.windowStart at hws
    rw [hl] at hws
    unfold chunkSize at *
    omega
  · intro p hp hlt
    rw [hlen] at hlt
    change b.windowStart ≤ p at hp
    have hpq : b.discardedChunks ≤ p / chunkSize := (Nat.le_div_iff_mul_le chunkSize_pos).mpr hp
    show ∃ c', (pre ++ [_])[p / chunkSize - b.discardedChunks]? = some c' ∧ _
    by_cases hold : p / chunkSize < data.length / chunkSize
    · -- a byte of an earlier chunk, which the write does not touch
      have hp2 : p < data.length := by
        unfold chunkSize at hold
        omega
      obtain ⟨c', hc', hb⟩ := hbyte p hp hp2
      have hi : p / chunkSize - b.discardedChunks < pre.length := by
        rw [hplen]
        omega
      rw [List.getElem?_append_left hi] at hc'
      refine ⟨c', by rw [List.getElem?_append_left hi, hc'], ?_⟩
      rw [List.getElem?_append_left hp2]
      exact hb
    · -- a byte of the chunk that was written
      have hq : p / chunkSize = data.length / chunkSize := by
        unfold chunkSize at *
        omega
      have hi : p / chunkSize - b.discardedChunks = pre.length := by
        rw [hplen, hq]
      refine ⟨_, by rw [hi, List.getElem?_append_right le_rfl, Nat.sub_self]; rfl, ?_⟩
      refine Chunk.write_byte c (by omega) hlt hq (fun hp2 => ?_)
      obtain ⟨c', hc', hb⟩ := hbyte p hp hp2
      rw [hi, List.getElem?_append_right le_rfl, Nat.sub_self] at hc'
      cases hc'
      exact hb

theorem Repr.appendSome {b : BufDeque} {data : List UInt8} (h : b.Repr data) {buf : List UInt8}
    (hbuf : buf ≠ []) :
    ∃ b' n, b.appendSome buf = .ok (b', n) ∧ 0 < n ∧ n ≤ buf.length ∧
      b'.Repr (data ++ buf.take n) ∧ b'.discardedChunks = b.discardedChunks := by
  have hpos : 0 < buf.length := List.length_pos_of_ne_nil hbuf
  obtain ⟨s, hs⟩ : ∃ s, s = if b.windowEnd < b.windowStart then
      min (b.windowStart - b.windowEnd) buf.length else 0 := ⟨_, rfl⟩
  have hsl : s ≤ buf.length := by
    rw [hs]
    split <;> omega
  have hl := h.len
  have hskip : Repr { b with windowEnd := b.windowEnd + s } (data ++ buf.take s) := by
    refine h.skip buf s hsl ?_
    rw [hs]
    split
    · exact Or.inr (by omega)
    · exact Or.inl rfl
  by_cases hdone : (buf.drop s).isEmpty = true
  · have hlen : buf.length ≤ s := by simpa using hdone
    refine ⟨_, s, ?_, by omega, hsl, hskip, rfl⟩
    unfold BufDeque.appendSome
    rw [← hs]
    simp only [hdone, ↓reduceIte]
    rfl
  · have hlt : s < buf.length := by simpa using hdone
    have hne : buf.drop s ≠ [] := by simpa using hlt
    have hws : b.windowStart ≤ b.windowEnd + s := by
      rw [hs]
      split <;> rename_i hb
      · rw [hs, if_pos hb] at hlt
        omega
      · omega
    obtain ⟨pre, c, hlast, hplen, hbyte⟩ := hskip.getLastChunk hws
    obtain ⟨w, hw⟩ : ∃ w, w = min (chunkSize - (b.windowEnd + s) % chunkSize) (buf.drop s).length :=
      ⟨_, rfl⟩
    have hmod : (b.windowEnd + s) % chunkSize < chunkSize := Nat.mod_lt _ chunkSize_pos
    have hwl : 0 < w ∧ w ≤ buf.length - s := by
      rw [hw, List.length_drop]
      omega
    have hwrite := hskip.writeChunk hws hne hw hplen hbyte
    rw [List.append_assoc, ← List.take_add] at hwrite
    refine ⟨_, s + w, ?_, by omega, by omega, hwrite, rfl⟩
    unfold BufDeque.appendSome
    rw [← hs]
    simp only [hdone, Bool.false_eq_true, ↓reduceIte]
    rw [hlast]
    simp only [ok_bind, pure_eq_ok, List.dropLast_concat, ← hw]

theorem Repr.writeAllLoop (fuel : Nat) {b : BufDeque} {data : List UInt8} (h : b.Repr data)
    (buf : List UInt8) (hf : buf.length ≤ fuel) :
    Returns (b.writeAllLoop fuel buf)
      (fun b' => b'.Repr (data ++ buf) ∧ b'.discardedChunks = b.discardedChunks) := by
  induction fuel generalizing b data buf with
  | zero =>
    have hnil : buf = [] := List.length_eq_zero_iff.mp (by omega)
    subst hnil
    exact returns_ok ⟨by rw [List.append_nil]; exact h, rfl⟩
  | succ fuel ih =>
    by_cases hnil : buf = []
    · subst hnil
      exact returns_ok ⟨by rw [List.append_nil]; exact h, rfl⟩
    · obtain ⟨b', n, he, hn0, hn, hr, hd⟩ := h.appendSome hnil
      have hrest := ih hr (buf.drop n) (by rw [List.length_drop]; omega)
      have hne : ¬ buf.isEmpty = true := by simpa using hnil
      unfold BufDeque.writeAllLoop
      rw [if_neg hne, he]
      simp only [ok_bind, if_neg (show ¬ n = 0 by omega)]
      refine hrest.mono (fun b'' hb => ⟨?_, hb.2.trans hd⟩)
      have := hb.1
      rwa [List.append_assoc, List.take_append_drop] at this

/-- **`write_all` appends its buffer** -/
theorem Repr.writeAll {b : BufDeque} {data : List UInt8} (h : b.Repr data) (buf : List UInt8) :
    Returns (b.writeAll buf)
      (fun b' => b'.Repr (data ++ buf) ∧ b'.discardedChunks = b.discardedChunks) :=
  h.writeAllLoop buf.length buf le_rfl

/-- writing chunk after chunk appends what they make together -/
theorem Repr.writeChunks {b : BufDeque} {data : List UInt8} (h : b.Repr data)
    (cs : List (List UInt8)) :
    Returns (cs.foldlM BufDeque.writeAll b)
      (fun b' => b'.Repr (data ++ cs.flatten) ∧ b'.discardedChunks = b.discardedChunks) := by
  induction cs generalizing b data with
  | nil =>
    apply returns_ok
    simpa using h
  | cons x cs ih =>
    rw [List.foldlM_cons]
    apply (h.writeAll x).bind
    intro b' hb'
    apply (ih hb'.1).mono
    intro b'' hb''
    rw [List.flatten_cons, ← List.append_assoc]
    exact ⟨hb''.1, hb''.2.trans hb'.2⟩

/-! ## reading -/

theorem Repr.getChunk {b : BufDeque} {data : List UInt8} (h : b.Repr data) {i : Nat}
    (hlo : b.windowStart ≤ i) (hi : i < data.length) :
    b.getChunk i = .ok ((data.drop i).take (min data.length (chunkEdge i) - i)) := by
  have hl := h.len
  have hws : b.windowStart = b.discardedChunks * chunkSize := rfl
  have hdiv : (i - b.windowStart) / chunkSize = i / chunkSize - b.discardedChunks := by
    rw [hws, Nat.mul_comm, Nat.sub_mul_div]
  have hmod : (i - b.windowStart) % chunkSize = i % chunkSize := by
    have hd : b.discardedChunks ≤ i / chunkSize := (Nat.le_div_iff_mul_le chunkSize_pos).mpr hlo
    rw [hws]
    unfold chunkSize at *
    omega
  obtain ⟨c, hc, _⟩ := h.byte i hlo hi
  have hsize : b.windowSize = .ok (b.windowEnd - b.windowStart) := by
    unfold windowSize
    rw [assertThat_true (by omega)]
    rfl
  have hstop : min chunkSize (b.windowEnd - b.windowStart - (i / chunkSize - b.discardedChunks) * chunkSize)
      = i % chunkSize + (min data.length (chunkEdge i) - i) := by
    have hd : b.discardedChunks ≤ i / chunkSize := (Nat.le_div_iff_mul_le chunkSize_pos).mpr hlo
    unfold chunkEdge
    rw [hl, hws]
    unfold chunkSize at *
    omega
  have hfit : i % chunkSize + (min data.length (chunkEdge i) - i) ≤ chunkSize := by
    rw [← hstop]
    exact min_le_left _ _
  unfold BufDeque.getChunk
  rw [assertThat_true ⟨hlo, by omega⟩, hsize]
  simp only [ok_bind]
  rw [hdiv, hc, hmod, hstop, unwrap_some, ok_bind]
  unfold Chunk.slice
  rw [if_pos ⟨by omega, hfit⟩, Nat.add_sub_cancel_left]
  congr 1
  apply List.ext_getElem?
  intro j
  rw [List.getElem?_map, List.getElem?_take]
  by_cases hj : j < min data.length (chunkEdge i) - i
  · rw [if_pos hj, List.getElem?_range' hj, List.getElem?_drop]
    have hij : i + j < data.length := by omega
    have hq : (i + j) / chunkSize = i / chunkSize := by
      unfold chunkEdge at hj
      unfold chunkSize at *
      omega
    obtain ⟨c', hc', hb⟩ := h.byte (i + j) (by omega) hij
    rw [hq, hc] at hc'
    cases hc'
    rw [hb]
    show some (c (Fin.ofNat _ (i % chunkSize + 1 * j))) = some (c (Fin.ofNat _ (i + j)))
    congr 2
    apply Fin.ext
    show (i % chunkSize + 1 * j) % chunkSize = (i + j) % chunkSize
    rw [Nat.one_mul, Nat.mod_add_mod]
  · rw [if_neg hj, List.getElem?_eq_none (by rw [List.length_range']; omega)]
    rfl

end BufDeque

end ReplayServer
