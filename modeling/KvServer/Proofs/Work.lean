/-
How much work a connection has before it.

A connection that is handling a line is a bounded number of its own steps away from the answer,
and `remaining` is that bound: every such step lowers it.  What a line costs in all is another
matter, since a transaction gives the tables it locks back only at its end.  So the measure for
that is

    work(c) = remaining(c) + aside(c)

where `aside` keeps two steps for each table that is locked while no loop over the locked tables
is due.  A request inside a transaction puts there what it does not use of the steps of its line,
and `trylock` puts there the two for the table it locks; nothing is taken out before the loop
comes.  One account of all the steps, `Moves.work`, is then enough for both.
-/
import Mathlib.Data.Finset.Card
import KvServer.Proofs.Steps

namespace KvServer

/-- How many of its own steps a connection is at most away from its answer. -/
def Conn.remaining (c : Conn) : Nat :=
  match c.pc with
  | .createLock _ => 3
  | .createBody _ => 2
  | .createUnlock _ => 1
  | .findLock _ => 2 * c.lockedTables.card + 7
  | .findBody _ => 2 * c.lockedTables.card + 6
  | .findUnlock _ _ => 2 * c.lockedTables.card + 5
  | .trylock _ _ => 2 * c.lockedTables.card + 4
  | .call _ _ => 1
  | .guardLock _ _ => 4
  | .guardCall _ _ => 3
  | .guardCommit _ => 2
  | .guardUnlock _ _ => 1
  | .ending _ rest => 2 * rest.card + 1
  | .endingUnlock _ _ rest => 2 * rest.card + 2
  | .reading | .closed | .terminated => 0

/-- What is put aside for the loop that will give the locked tables back, where that may not be
the next thing to come. -/
def Conn.aside (c : Conn) : Nat :=
  match c.pc with
  | .findLock _ | .findBody _ | .findUnlock _ _ | .trylock _ _ => 0
  | .ending _ _ | .endingUnlock _ _ _ | .closed | .terminated => 0
  | _ => 2 * c.lockedTables.card

/-- The steps that a connection may still take for what it has read. -/
def Conn.work (c : Conn) : Nat := c.remaining + c.aside

/-- Those that the end of its input may cost. -/
def Conn.farewell (c : Conn) : Nat :=
  if c.pc.gone then 0 else 2

/-- A step that takes nothing from the client. -/
def Choice.own : Choice → Bool
  | .go | .visit _ => true
  | .recv _ | .eof => false

section Step

variable {p : Platform} {sv : Server} {c c' : Conn} {ch : Choice} {effect : Effect} {line : Str}

/-- On the way out there is nothing to come but the loop of the destructor. -/
theorem leave_work (hpc : c'.pc = c.leave) :
    c'.work + c'.farewell ≤ 2 * c.lockedTables.card + 1 := by
  unfold Conn.leave at hpc
  split at hpc
  · simp [Conn.work, Conn.remaining, Conn.aside, Conn.farewell, hpc, Pc.gone]
  · simp [Conn.work, Conn.remaining, Conn.aside, Conn.farewell, hpc, Pc.gone]

theorem reading_work (hpc : c.pc = .reading) :
    c.work + c.farewell = 2 * c.lockedTables.card + 2 := by
  simp [Conn.work, Conn.remaining, Conn.aside, Conn.farewell, hpc, Pc.gone]

theorem Served.work (h : Served p line c c') :
    c'.work + c'.farewell ≤ 2 * c.lockedTables.card + 9 := by
  cases h with
  | leave hresp hleft => exact Nat.le_trans (leave_work (c := c) rfl) (by omega)
  | create hm htype =>
      simp [Conn.work, Conn.remaining, Conn.aside, Conn.farewell, Pc.gone]
      omega
  | _ => simp [Conn.work, Conn.remaining, Conn.aside, Conn.farewell, Pc.gone]

/-- **A step is paid for**, by the line it reads or by what has been put aside. -/
theorem Moves.work (h : Moves p sv c ch effect c') :
    1 + (c'.work + c'.farewell) ≤ 8 * ch.received.length + (c.work + c.farewell) := by
  cases h with
  | request hpc hpos hlen h =>
      have hserved : c'.work + c'.farewell ≤ 2 * c.lockedTables.card + 9 := h.work
      rw [reading_work hpc]
      show _ ≤ 8 * 1 + _
      omega
  | eof hpc =>
      have hleave : Conn.work { c with pc := c.leave } + Conn.farewell { c with pc := c.leave }
          ≤ 2 * c.lockedTables.card + 1 := leave_work rfl
      rw [reading_work hpc]
      omega
  | visit hpc ht =>
      have hcard := Finset.card_erase_of_mem ht
      have hpos := Finset.card_pos.mpr ⟨_, ht⟩
      cases ‹Ending› <;>
        simp [Conn.work, Conn.remaining, Conn.aside, Conn.farewell, hpc, Pc.gone, Choice.received] <;>
        omega
  | release hpc =>
      cases ‹Ending› <;>
        simp [Conn.work, Conn.remaining, Conn.aside, Conn.farewell, hpc, Pc.gone, Choice.received] <;>
        omega
  | @trylock a t hpc hfree =>
      have hcard := Finset.card_insert_le t c.lockedTables
      simp [Conn.work, Conn.remaining, Conn.aside, Conn.farewell, hpc, Pc.gone, Choice.received]
      omega
  | _ =>
      simp [Conn.work, Conn.remaining, Conn.aside, Conn.farewell, ‹c.pc = _›, Pc.gone,
        Choice.received]
      try omega

theorem Moves.own_busy (h : Moves p sv c ch effect c') (hown : ch.own = true) :
    c.pc ≠ .reading := by
  intro hpc
  cases h with
  | request | eof => cases hown
  | _ => cases hpc.symm.trans ‹c.pc = _›

/-- Inside a request nothing is read, so a step is paid for out of the work that is left. -/
theorem Moves.work_busy (h : Moves p sv c ch effect c') (hreading : c.pc ≠ .reading) :
    c'.work < c.work := by
  have hpaid := h.work
  have hreceived : ch.received = [] :=
    List.append_right_eq_self.mp (h.received.symm.trans (h.received_same hreading))
  rw [Conn.farewell, Conn.farewell, h.gone hreading, hreceived, List.length_nil] at hpaid
  omega

/-- And what has been put aside stays there. -/
theorem Moves.aside (h : Moves p sv c ch effect c') (hreading : c.pc ≠ .reading) :
    c.aside ≤ c'.aside := by
  cases h with
  | request hpc hpos hlen h => exact absurd hpc hreading
  | eof hpc => exact absurd hpc hreading
  | _ => simp [Conn.aside, ‹c.pc = _›]

/-- **Every step gets nearer to the answer.** -/
theorem Moves.remaining (h : Moves p sv c ch effect c') (hreading : c.pc ≠ .reading) :
    c'.remaining < c.remaining := by
  have hwork : c'.remaining + c'.aside < c.remaining + c.aside := h.work_busy hreading
  have haside := h.aside hreading
  omega

end Step

end KvServer
