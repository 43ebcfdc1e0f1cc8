import WordMachine.Fault

/-!
# Devices

A device answers requests at the addresses of its own. A request reads or writes a byte or a
word, and its type says what a successful answer holds. An answer may change the device, whether
the request is a read or a write and whether it succeeds or not.
-/

namespace WordMachine

/-- What is asked of a device at an address. -/
inductive Request where
  | readByte
  | readWord
  | writeByte (value : Byte)
  | writeWord (value : Word)
deriving DecidableEq, Repr

/-- What a successful answer to a request holds. -/
abbrev Request.Reply : Request → Type
  | readByte => Byte
  | readWord => Word
  | writeByte _ => Unit
  | writeWord _ => Unit

/-- Whether a request asks to change what the device stores. -/
def Request.isWrite : Request → Bool
  | readByte => false
  | readWord => false
  | writeByte _ => true
  | writeWord _ => true

/-- The types of devices, each with the answer to a request at an address and the device after
    it. -/
class Device (δ : Type) where
  answer : δ → Word → (request : Request) → Except Fault request.Reply × δ

/-- A device of one of two types. -/
instance {δ ε : Type} [Device δ] [Device ε] : Device (δ ⊕ ε) where
  answer
    | .inl device, address, request =>
      match Device.answer device address request with
      | (reply, device) => (reply, .inl device)
    | .inr device, address, request =>
      match Device.answer device address request with
      | (reply, device) => (reply, .inr device)

end WordMachine
