import MiniTcg.Game.Ledger
import MiniTcg.Game.Overflow
import MiniTcg.Server.Serve

/-!
# The counters of a session

The history of a session is that of a match, and every state it saves or sends
was reached on the way; so what the match modules prove of histories holds of
sessions, through every resume.
-/
namespace MiniTcg.Server

open MiniTcg.Game MiniTcg.Ipc MiniTcg.Wire

/-- A state the server saved or sent. -/
def Published (io : List Io) (st : State) : Prop :=
  .sent (.state st) ∈ io ∨ ∃ a hand rc, .saved a st hand rc ∈ io

/-- No counter wraps: every conversion is exact, every card moves its counter
forward, and no state saved or sent has a negative counter. -/
def NoWrap (s : Session) : Prop :=
  AllExact s.worker.game.trace ∧ ∀ st, Published s.worker.io st → NonNeg st.toCore

theorem AllRoom.suffix {t t' : List Event} (h : AllRoom t) (hs : t' <:+ t) : AllRoom t' :=
  fun e he => h e (hs.subset he)

section Numbers
variable {rng : ℕ → ℕ} {ms : List Move}

theorem Follows.published {s : Session} (h : Follows rng s) {st : State}
    (hp : Published s.worker.io st) : FromTrace s.worker.game.trace st := by
  rcases hp with hp | ⟨a, hand, rc, hp⟩
  · exact h.record _ hp
  · exact (h.record _ hp).2

/-- The counters of a session are exact exactly when every card it played had
room in its field. -/
theorem session_exact_iff (h : Single rng ms) :
    NoWrap (runSession rng ms) ↔ AllRoom (runSession rng ms).worker.game.trace := by
  constructor
  · rintro ⟨hex, _⟩
    rcases h.follows.traced with hnil | ⟨v, hv, ht⟩
    · rw [hnil]
      exact fun p hp => absurd hp List.not_mem_nil
    · rw [← ht] at hex ⊢
      exact hv.room_of_exact hex
  · intro room
    refine ⟨?_, fun st hp => ?_⟩
    · rcases h.follows.traced with hnil | ⟨v, hv, ht⟩
      · rw [hnil]
        exact ⟨fun e he => absurd he List.not_mem_nil, fun p hp => absurd hp List.not_mem_nil⟩
      · rw [← ht] at room ⊢
        exact (hv.exact room).2
    · obtain ⟨v, hv, hcore, hs⟩ := h.follows.published hp
      rw [← hcore]
      exact (hv.exact (AllRoom.suffix room hs)).1

end Numbers

theorem session_exact_strike :
    NoWrap (runSession (fun _ => 0) (serve [⟨opPlayCard, [0]⟩, ⟨opEndTurn, []⟩])) := by
  obtain ⟨hs, _, _⟩ := serve_run (fun _ => 0) [⟨opPlayCard, [0]⟩, ⟨opEndTurn, []⟩]
  refine (session_exact_iff hs).mpr ?_
  rw [(serve_game (fun _ => 0) [⟨opPlayCard, [0]⟩, ⟨opEndTurn, []⟩]).trace]
  decide +kernel

/-- In round 254 of the Venom match the poison falls from 253 to 0. -/
theorem session_wraps :
    Single venomRng (serve venomPackets) ∧ ¬ NoWrap (runSession venomRng (serve venomPackets)) := by
  refine ⟨(serve_run _ _).1, fun h => ?_⟩
  obtain ⟨p, hp, hside, hrc, hcard, hbefore, hafter⟩ := venom_overflows
  rw [← (serve_game venomRng venomPackets).trace] at hp
  have hforward := h.1.2 p hp hrc venom hcard
  change (p.before.poison p.side.other).toNat ≤ (p.after.poison p.side.other).toNat at hforward
  rw [hside] at hforward
  change p.before.aiPoison.toNat ≤ p.after.aiPoison.toNat at hforward
  rw [hbefore, hafter] at hforward
  exact absurd hforward (by decide)

/-! ### The ledger -/

/-- In an open game what each side has left is what it started with and played for
itself, less what the other side's attacks, spent buffs and ticked poison took. -/
theorem session_ledger {rng : ℕ → ℕ} {ms : List Move} (h : Single rng ms)
    (hpc : (runSession rng ms).worker.pc = .recv)
    (hlive : (runSession rng ms).worker.game.st.gameOver = 0)
    (hcap : Capped (runSession rng ms).worker.game.trace) (x : Side) :
    let g := (runSession rng ms).worker.game
    (g.st.hp x).toInt + (g.st.shield x).toInt =
      30 + totals g.trace x .heal + totals g.trace x .shield -
        (totals g.trace x.other .atk + totals g.trace x.other .buff - (g.st.buff x.other).toInt) -
        2 * (totals g.trace x.other .poison - (g.st.poison x).toNat) := by
  have hs := h.follows.synced hpc
  exact (hs.reachable.balanced hcap hlive x).sum

theorem session_ledger_strike :
    Capped (runSession (fun _ => 0)
        (serve [⟨opPlayCard, [0]⟩, ⟨opEndTurn, []⟩])).worker.game.trace ∧
      ((runSession (fun _ => 0)
        (serve [⟨opPlayCard, [0]⟩, ⟨opEndTurn, []⟩])).worker.game.st.hp .player).toInt +
        ((runSession (fun _ => 0)
          (serve [⟨opPlayCard, [0]⟩, ⟨opEndTurn, []⟩])).worker.game.st.shield .player).toInt = 21 := by
  obtain ⟨hs, hpc, _⟩ := serve_run (fun _ => 0) [⟨opPlayCard, [0]⟩, ⟨opEndTurn, []⟩]
  have hg := serve_game (fun _ => 0) [⟨opPlayCard, [0]⟩, ⟨opEndTurn, []⟩]
  have hcap : Capped (runSession (fun _ => 0)
      (serve [⟨opPlayCard, [0]⟩, ⟨opEndTurn, []⟩])).worker.game.trace := by
    rw [hg.trace]
    intro x
    cases x <;> decide +kernel
  have hlive : (runSession (fun _ => 0)
      (serve [⟨opPlayCard, [0]⟩, ⟨opEndTurn, []⟩])).worker.game.st.gameOver = 0 := by
    rw [hg.core]
    decide +kernel
  refine ⟨hcap, (session_ledger hs hpc hlive hcap .player).trans ?_⟩
  rw [hg.core, hg.trace]
  decide +kernel

end MiniTcg.Server
