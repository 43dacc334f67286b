import MiniTcg.Game.State

/-!
# Opcodes and messages

`opcode_t`, decoded packets, and the server's replies as typed messages.
-/
namespace MiniTcg.Wire

open MiniTcg.Game

def opLoginReq : UInt16 := 0x0001
def opPing : UInt16 := 0x0002
def opResumeReq : UInt16 := 0x0003
def opPlayCard : UInt16 := 0x0101
def opEndTurn : UInt16 := 0x0102

/-- What `proto_recv` hands to the server: any opcode, any payload. -/
structure Packet where
  op : UInt16
  payload : List UInt8
  deriving DecidableEq, Repr

/-- `resume_req_t.session_id`, in the byte order of the host. -/
def sessionIdOf (payload : List UInt8) : UInt64 :=
  UInt64.ofNat ((payload.take 8).foldr (fun b acc => b.toNat + 256 * acc) 0)

/-- A packet the server sends: opcode and payload structure. -/
inductive Msg
  | loginResp (ok : ℤ)
  | resumeResp (ok : ℤ) (sid : UInt64)
  | pong
  | state (st : State)
  | hand (hand : Hand)
  | error (code : ℤ) (msg : String)
  deriving DecidableEq, Repr

end MiniTcg.Wire
