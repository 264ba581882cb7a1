import Shigure.Kb.Buffer

/-!
# The keyboard buffer is a queue

Whatever the interrupts do between two steps of the reader, the buffer holds the
characters that were accepted and not yet released, in their order of arrival,
and the reader has in its hand the first of them.
-/

namespace Shigure.Kb

def KbState.pending (s : KbState) (n : Nat) : List (BitVec 8) :=
  window s.buffer.keyboardBuffer keyboardBufferSize s.buffer.bufferStart n

def Reader.Ready (r : Reader) (b : Buffer) (n : Nat) : Prop :=
  match r with
  | .test => True
  | .read => 0 < n
  | .update c => 0 < n ∧ c = b.keyboardBuffer b.bufferStart

structure KbState.Holds (s : KbState) (n : Nat) : Prop where
  start : s.buffer.bufferStart < keyboardBufferSize
  room : n < keyboardBufferSize
  stop : s.buffer.bufferEnd = (s.buffer.bufferStart + n) % keyboardBufferSize
  queue : s.accepted = s.returned ++ s.pending n
  ready : s.reader.Ready s.buffer n

section
variable {s t : KbState} {e : Event} {c : BitVec 8} {n : Nat}

theorem init_holds : KbState.init.Holds 0 :=
  ⟨by decide, by decide, rfl, rfl, trivial⟩

theorem KbState.Holds.full_iff (h : s.Holds n) :
    isBufferFull s.buffer = true ↔ n + 1 = keyboardBufferSize := by
  rw [isBufferFull, h.stop, beq_iff_eq]
  exact ends_touch h.start h.room

theorem KbState.Holds.empty_iff (h : s.Holds n) : isBufferEmpty s.buffer = true ↔ n = 0 := by
  rw [isBufferEmpty, h.stop, beq_iff_eq]
  exact ends_meet h.start h.room

-- ---------------------------------------------------------------------------
-- One step
-- ---------------------------------------------------------------------------

/-- A full buffer takes nothing; otherwise the character goes behind the others,
into a slot that the reader does not look at. -/
theorem KbState.Holds.put (h : s.Holds n) (c : BitVec 8) :
    (n + 1 = keyboardBufferSize ∧ s.put c = s) ∨
      (n + 1 < keyboardBufferSize ∧ (s.put c).Holds (n + 1)) := by
  have hroom := h.room
  rcases Nat.lt_or_ge (n + 1) keyboardBufferSize with hlt | hge
  · have hfull : isBufferFull s.buffer = false := by
      rw [← Bool.not_eq_true, h.full_iff]
      omega
    refine .inr ⟨hlt, ?_⟩
    simp only [KbState.put, keyboardBufferPut, hfull, Bool.not_false, ↓reduceIte,
      Bool.false_eq_true]
    refine ⟨h.start, hlt, ?_, ?_, ?_⟩
    · simp only [h.stop, Nat.mod_add_mod, Nat.add_assoc]
    · simp only [h.queue, KbState.pending, h.stop, window_push h.room, List.append_assoc]
    · have hkeep : 0 < n → s.buffer.bufferStart ≠ s.buffer.bufferEnd := fun hpos he => by
        rw [h.stop] at he
        exact hpos.ne' ((ends_meet h.start h.room).mp he)
      have hready := h.ready
      cases hr : s.reader with
      | test => trivial
      | read => exact Nat.succ_pos n
      | update d =>
        rw [hr] at hready
        exact ⟨Nat.succ_pos n, by simp only [if_neg (hkeep hready.1), hready.2]⟩
  · have heq : n + 1 = keyboardBufferSize := by omega
    have hfull := h.full_iff.mpr heq
    refine .inl ⟨heq, ?_⟩
    simp only [KbState.put, keyboardBufferPut, hfull, Bool.not_true, Bool.false_eq_true, ↓reduceIte]

theorem readerStep_accepted (s : KbState) : s.readerStep.accepted = s.accepted := by
  rw [KbState.readerStep]
  cases s.reader with
  | test => dsimp only; split <;> rfl
  | read => rfl
  | update c => rfl

theorem KbState.Holds.test (h : s.Holds n) (hr : s.reader = .test) :
    s.readerStep.Holds n ∧ (0 < n → s.readerStep.reader = .read) := by
  have hempty := h.empty_iff
  rw [KbState.readerStep, hr]
  dsimp only
  split
  · have : n = 0 := hempty.mp ‹_›
    exact ⟨h, fun hpos => absurd this hpos.ne'⟩
  · have hpos : 0 < n := Nat.pos_of_ne_zero fun h0 => ‹¬ _› (hempty.mpr h0)
    exact ⟨⟨h.start, h.room, h.stop, h.queue, hpos⟩, fun _ => rfl⟩

theorem KbState.Holds.read (h : s.Holds n) (hr : s.reader = .read) :
    s.readerStep.Holds n ∧ ∃ c, s.readerStep.reader = .update c := by
  have hready := h.ready
  rw [hr] at hready
  rw [KbState.readerStep, hr]
  exact ⟨⟨h.start, h.room, h.stop, h.queue, hready, rfl⟩, _, rfl⟩

/-- Only the update of the index releases a character. -/
theorem KbState.Holds.update (h : s.Holds n) (hr : s.reader = .update c) :
    ∃ m, n = m + 1 ∧ s.readerStep.Holds m := by
  have hready := h.ready
  have hroom := h.room
  rw [hr] at hready
  obtain ⟨hpos, rfl⟩ := hready
  obtain ⟨m, rfl⟩ : ∃ m, n = m + 1 := ⟨n - 1, by omega⟩
  rw [KbState.readerStep, hr]
  refine ⟨m, rfl, Nat.mod_lt _ (by decide), by omega, ?_, ?_, trivial⟩
  · simp only [h.stop, Nat.mod_add_mod]
    congr 1
    omega
  · simp only [h.queue, KbState.pending, window_pop h.start, List.append_assoc,
      List.singleton_append]

theorem KbState.Holds.readerStep (h : s.Holds n) : ∃ m, s.readerStep.Holds m := by
  cases hr : s.reader with
  | test => exact ⟨n, (h.test hr).1⟩
  | read => exact ⟨n, (h.read hr).1⟩
  | update c =>
    obtain ⟨m, -, h'⟩ := h.update hr
    exact ⟨m, h'⟩

theorem KbState.Holds.step (h : s.Holds n) (hs : Event.step s e = some t) : ∃ m, t.Holds m := by
  cases e with
  | put c =>
    obtain rfl := Option.some.inj hs
    rcases h.put c with ⟨-, he⟩ | ⟨-, h'⟩
    · exact ⟨n, by rwa [he]⟩
    · exact ⟨n + 1, h'⟩
  | reader =>
    obtain rfl := Option.some.inj hs
    exact h.readerStep

-- ---------------------------------------------------------------------------
-- Runs
-- ---------------------------------------------------------------------------

abbrev Run : KbState → Prop := Reach (fun _ _ => True) Event.step KbState.init

theorem holds_of_run (h : Run s) : ∃ n, s.Holds n :=
  h.invariant (fun s => ∃ n, s.Holds n) ⟨0, init_holds⟩ fun _ _ _ ⟨_, h⟩ _ hs => h.step hs

theorem KbState.Holds.length (h : s.Holds n) : s.accepted.length = s.returned.length + n := by
  rw [h.queue, List.length_append, KbState.pending, window_length]

theorem KbState.Holds.releaseUpdate (h : s.Holds (n + 1)) (hr : s.reader = .update c) :
    ∃ k, (KbState.readerStep^[k] s).Holds n ∧
      (KbState.readerStep^[k] s).accepted = s.accepted := by
  obtain ⟨m, hm, h'⟩ := h.update hr
  obtain rfl : n = m := by omega
  exact ⟨1, h', readerStep_accepted s⟩

theorem KbState.Holds.releaseRead (h : s.Holds (n + 1)) (hr : s.reader = .read) :
    ∃ k, (KbState.readerStep^[k] s).Holds n ∧
      (KbState.readerStep^[k] s).accepted = s.accepted := by
  obtain ⟨h', c, hc⟩ := h.read hr
  obtain ⟨k, hk, ha⟩ := h'.releaseUpdate hc
  exact ⟨k + 1, hk, ha.trans (readerStep_accepted s)⟩

theorem KbState.Holds.release (h : s.Holds (n + 1)) :
    ∃ k, (KbState.readerStep^[k] s).Holds n ∧
      (KbState.readerStep^[k] s).accepted = s.accepted := by
  cases hr : s.reader with
  | test =>
    obtain ⟨h', hread⟩ := h.test hr
    obtain ⟨k, hk, ha⟩ := h'.releaseRead (hread (Nat.succ_pos n))
    exact ⟨k + 1, hk, ha.trans (readerStep_accepted s)⟩
  | read => exact h.releaseRead hr
  | update c => exact h.releaseUpdate hr

/-- Left alone, the reader returns everything that was accepted. -/
theorem KbState.Holds.drain (h : s.Holds n) :
    ∃ k, (KbState.readerStep^[k] s).returned = s.accepted := by
  induction n generalizing s with
  | zero => exact ⟨0, by simpa [KbState.pending, window_zero] using h.queue.symm⟩
  | succ n ih =>
    obtain ⟨j, hj, ha⟩ := h.release
    obtain ⟨k, hk⟩ := ih hj
    exact ⟨k + j, by rw [Function.iterate_add_apply, hk, ha]⟩

/-- In every run the indices stay inside the buffer; the characters returned are the
first ones accepted, and the others are in the buffer in their order of arrival, from
where a reader left alone returns them all; and a character is rejected exactly when
all slots but one hold characters that were not released. -/
theorem keyboard_fifo (h : Run s) :
    (s.buffer.bufferStart < keyboardBufferSize ∧ s.buffer.bufferEnd < keyboardBufferSize) ∧
    (∃ pending : List (BitVec 8), s.accepted = s.returned ++ pending ∧
      (∀ i (hi : i < pending.length), s.buffer.keyboardBuffer
        ((s.buffer.bufferStart + i) % keyboardBufferSize) = pending[i]) ∧
      ∀ c, s.reader = .update c → pending.head? = some c) ∧
    (∃ k, (KbState.readerStep^[k] s).returned = s.accepted) ∧
    ∀ c, ((s.put c).accepted = s.accepted ∧
        s.accepted.length = s.returned.length + (keyboardBufferSize - 1)) ∨
      ((s.put c).accepted = s.accepted ++ [c] ∧
        s.accepted.length < s.returned.length + (keyboardBufferSize - 1)) := by
  obtain ⟨n, hn⟩ := holds_of_run h
  have hroom := hn.room
  refine ⟨⟨hn.start, ?_⟩, ⟨s.pending n, hn.queue, fun i hi => ?_, fun c hc => ?_⟩, hn.drain,
    fun c => ?_⟩
  · rw [hn.stop]
    exact Nat.mod_lt _ (by decide)
  · simp only [KbState.pending, window, List.getElem_map, List.getElem_range]
  · have hready := hn.ready
    rw [hc] at hready
    obtain ⟨hpos, rfl⟩ := hready
    obtain ⟨m, rfl⟩ : ∃ m, n = m + 1 := ⟨n - 1, by omega⟩
    rw [KbState.pending, window_pop hn.start, List.head?_cons]
  · have hlen := hn.length
    have hfull := hn.full_iff
    simp only [KbState.put]
    split
    · have := hfull.mp ‹_›
      exact .inl ⟨rfl, by omega⟩
    · have : n + 1 ≠ keyboardBufferSize := fun he => ‹¬ _› (hfull.mpr he)
      exact .inr ⟨rfl, by omega⟩

/-- An interrupt between the read of the slot and the update of the index. -/
theorem keyboard_fifo_interrupted : ∃ s : KbState, s.reader = .update 97 ∧
    ∃ k, (KbState.readerStep^[k] s).returned = [97, 98] := by
  obtain ⟨s, hr, ha, hread⟩ := Reach.exists_of_exec (fun _ _ => True) Event.step KbState.init
    (fun s => s.accepted = [97, 98] ∧ s.reader = .update 97)
    [.put 97, .reader, .reader, .put 98] (by decide)
  exact ⟨s, hread, ha ▸ (keyboard_fifo hr).2.2.1⟩

end

end Shigure.Kb
