import StorageMarket.Decimal
import StorageMarket.Json.Codec

/-! Market parameters and engine settings. Parameters can be kept as a text; a text that
cannot be used never yields parameters that break the bound on the slashing fraction. -/

namespace StorageMarket

instance : Codec Decimal where
  toJson a := Codec.toJson a.text
  ofJson? j := (Codec.ofJson? j : Option String) >>= Decimal.parse?

structure Params where
  /-- Least escrow per byte, block and replica. -/
  basePrice : Decimal := ⟨1000000⟩
  /-- Least stake of a provider that makes offers. -/
  minStake : Amount := 1000000
  slashingFraction : Decimal := ⟨50000000000000000⟩
deriving DecidableEq

structure Config where
  /-- The sweep runs at heights that this divides. -/
  sweepInterval : Word := 14400
  defaultDenom : String := "utoken"
  /-- How long a settled payment history is kept after its last payment. -/
  retention : Word := 100000
deriving DecidableEq

inductive ConfigError
  | slashingFraction (f : Decimal)
  | sweepInterval
  | defaultDenom
  | unreadable
  | unparsable
  | unwritable
deriving DecidableEq

def ConfigError.message : ConfigError → String
  | slashingFraction f => s!"slashing_fraction must be <= 1, got {f.text}"
  | sweepInterval => "sweep_interval_blocks must be > 0"
  | defaultDenom => "default_denom must not be empty"
  | unreadable => "Failed to read params file"
  | unparsable => "Failed to parse params"
  | unwritable => "Failed to write params"

instance : Codec Params where
  toJson p := Codec.record [
    ("base_price_per_byte_per_block", Codec.toJson p.basePrice),
    ("min_provider_stake", Codec.toJson p.minStake),
    ("slashing_fraction", Codec.toJson p.slashingFraction)]
  ofJson? j := do
    match ← Codec.fields? ["base_price_per_byte_per_block", "min_provider_stake",
        "slashing_fraction"] j with
    | [price, stake, slash] =>
      return ⟨← Codec.field? price, ← Codec.field? stake, ← Codec.field? slash⟩
    | _ => none

instance : Codec Config where
  toJson c := Codec.record [
    ("sweep_interval_blocks", Codec.toJson c.sweepInterval),
    ("default_denom", Codec.toJson c.defaultDenom),
    ("payment_retention_blocks", Codec.toJson c.retention)]
  ofJson? j := do
    match ← Codec.fields? ["sweep_interval_blocks", "default_denom",
        "payment_retention_blocks"] j with
    | [interval, denom, retention] =>
      return ⟨← Codec.field? interval, ← Codec.field? denom, ← Codec.field? retention⟩
    | _ => none

namespace Params

def validate (p : Params) : Except ConfigError Unit :=
  if p.slashingFraction ≤ .one then .ok () else .error (.slashingFraction p.slashingFraction)

/-- The text that parameters are kept as. -/
def render (p : Params) : Bytes := (Codec.toJson p).pretty

/-- Hands the text to a writer that may refuse it. -/
def save (write : Bytes → Bool) (p : Params) : Except ConfigError Unit :=
  if write p.render then .ok () else .error .unwritable

/-- Reads what is kept, `none` when there is nothing. What is kept has to be a text. -/
def load (kept : Option Bytes) : Except ConfigError Params :=
  match kept >>= Bytes.text? with
  | none => .error .unreadable
  | some s =>
    match Codec.decode? (Bytes.ofText s) with
    | none => .error .unparsable
    | some p => (validate p).map fun _ => p

/-- Falls back to the default parameters. -/
def loadOrDefault (kept : Option Bytes) : Params :=
  match load kept with
  | .ok p => p
  | .error _ => {}

end Params

def Config.validate (c : Config) : Except ConfigError Unit :=
  if c.sweepInterval = 0 then .error .sweepInterval
  else if c.defaultDenom = "" then .error .defaultDenom
  else .ok ()

end StorageMarket
