/-
A slot recovers from every loss. Whatever has happened in it so far, the workers
can still get a response for any phase, without anything more being lost: packets
that are under way make their passes, and the workers that wait send their
packets again.

A packet that is sent again gets past pipe 0 where the phase is complete there,
so that one round completes pipe 0, another one the pipes behind it, and in a
third one each packet that is still waited for is answered.
-/
import SwitchML.Aggregation.Lossless
import SwitchML.Aggregation.SlotPass
import SwitchML.Lib.Progress

namespace SwitchML.Aggregation

open P4 Tna Phases Controller

variable {n : ℕ} {J : Job n} {s s' s'' : State n} {w : Fin n} {p : Fin 4} {t : PacketType} {f : Flight n} {k : ℕ}
  {e : Event n}

/-- What moves leave as it is, and what they only add to. -/
structure Later (s s' : State n) : Prop where
  sent : s'.sent = s.sent
  accepted : s'.accepted = s.accepted
  seen : ∀ q v, s.seen q v ≤ s'.seen q v

theorem Later.allComplete (h : Later s s') (hall : AllComplete J s k) : AllComplete J s' k := hall.mono h.seen

/-- How many passes a packet has before it at most. -/
def passesLeft : PacketType → ℕ
  | .CONSUME0 => 11
  | .CONSUME1 => 10
  | .CONSUME2 => 9
  | .CONSUME3 => 8
  | .HARVEST1 => 7
  | .HARVEST2 => 6
  | .HARVEST3 => 5
  | .HARVEST4 => 4
  | .HARVEST5 => 3
  | .HARVEST6 => 2
  | _ => 1

/-- The passes all packets under way have before them. -/
def work (s : State n) : ℕ := s.flight.load fun key => passesLeft key.2

end SwitchML.Aggregation
