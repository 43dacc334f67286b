import MiniTcg.Lib.Packed
import MiniTcg.Wire.Packet

/-!
# The payload structures

The packed structures of `proto.h` byte by byte, on a host whose numbers are
little-endian. The server sends its records as they lie in memory and the clients
copy them back, so a record survives the wire if its layout can be inverted.
-/
namespace MiniTcg.Wire

open MiniTcg.Game

def opLoginResp : UInt16 := 0x8001
def opPong : UInt16 := 0x8002
def opResumeResp : UInt16 := 0x8003
def opState : UInt16 := 0x0201
def opHand : UInt16 := 0x0202
def opError : UInt16 := 0xFFFF

def phaseByte : Phase → UInt8
  | .draw => 0
  | .main => 1
  | .ending => 2

def phaseOfByte (b : UInt8) : Option Phase :=
  if b = 0 then some .draw else if b = 1 then some .main else if b = 2 then some .ending else none

theorem phaseByte_ofByte {b : UInt8} {p : Phase} (h : phaseOfByte b = some p) : phaseByte p = b := by
  unfold phaseOfByte at h
  split at h
  · cases h
    exact ‹b = 0›.symm
  · split at h
    · cases h
      exact ‹b = 1›.symm
    · split at h
      · cases h
        exact ‹b = 2›.symm
      · cases h

/-- `phase` as the byte it is stored in. -/
def phaseT : Format Phase :=
  Format.u8.via phaseByte phaseOfByte (by intro p; cases p <;> rfl) phaseByte_ofByte

/-- `state_t`. -/
def stateT : Format State :=
  (Format.i16.seq <| Format.i16.seq <| Format.u8.seq <| phaseT.seq <| Format.u8.seq <|
    Format.u8.seq <| Format.u8.seq <| Format.u8.seq <| Format.i16.seq <| Format.i16.seq <|
    Format.i16.seq <| Format.i16.seq <| Format.u8.seq <| Format.u8.seq <| Format.u8.seq
      ((Format.u8.vector logLen).vector logLines)).via
    (fun st => (st.pHp, st.aiHp, st.turn, st.phase, st.gameOver, st.winner, st.mana, st.maxMana,
      st.pShield, st.aiShield, st.pBuff, st.aiBuff, st.pPoison, st.aiPoison, st.logHead, st.logs))
    (fun ⟨pHp, aiHp, turn, phase, gameOver, winner, mana, maxMana, pShield, aiShield, pBuff, aiBuff,
        pPoison, aiPoison, logHead, logs⟩ =>
      some ⟨⟨pHp, aiHp, turn, phase, gameOver, winner, mana, maxMana, pShield, aiShield, pBuff,
        aiBuff, pPoison, aiPoison⟩, logHead, logs⟩)
    (fun _ => rfl) (fun h => by rw [← Option.some.inj h])

/-- `hand_t`. -/
def handT : Format Hand :=
  (Format.u8.seq (Format.u16.vector 8)).via (fun h => (h.n, h.cardIds))
    (fun p => some ⟨p.1, p.2⟩) (fun _ => rfl) (fun h => by rw [← Option.some.inj h])

/-- `resume_req_t`. -/
def resumeReqT : Format UInt64 := Format.u64

/-- `login_resp_t`. -/
def loginRespT : Format Int32 := Format.i32

/-- `resume_resp_t`. -/
def resumeRespT : Format (Int32 × UInt64) := Format.i32.seq Format.u64

/-- `error_t`. -/
def errorT : Format (Int32 × Vector UInt8 48) := Format.i32.seq (Format.u8.vector 48)

/-- The `strncpy` of `err_send` into the zeroed `msg`, and the NUL behind it. -/
def errText (msg : List UInt8) : Vector UInt8 48 :=
  Vector.ofFn fun j => if j.val < 47 then (msg.takeWhile fun b => b ≠ 0).getD j.val 0 else 0

theorem stateT_size : stateT.size = 405 := by
  show 21 + ((Format.u8.vector logLen).vector logLines).size = 405
  rw [Format.vector_size, Format.vector_size]
  rfl

theorem handT_size : handT.size = 17 := by
  show 1 + (Format.u16.vector 8).size = 17
  rw [Format.vector_size]
  rfl

theorem errorT_size : errorT.size = 52 := by
  show 4 + (Format.u8.vector 48).size = 52
  rw [Format.vector_size]
  rfl

/-- What the server hands to `proto_send` for a message. -/
def Msg.packet : Msg → Packet
  | .loginResp ok => ⟨opLoginResp, loginRespT.put (Int32.ofInt ok)⟩
  | .resumeResp ok sid => ⟨opResumeResp, resumeRespT.put (Int32.ofInt ok, sid)⟩
  | .pong => ⟨opPong, []⟩
  | .state st => ⟨opState, stateT.put st⟩
  | .hand h => ⟨opHand, handT.put h⟩
  | .error code msg => ⟨opError, errorT.put (Int32.ofInt code, errText (text msg))⟩

end MiniTcg.Wire
