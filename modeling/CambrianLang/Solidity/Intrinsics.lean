/-
  **What the EVM back end can lower** (`codegen/solidity/core/expr.rs`,
  `codegen/stdlib.rs`, `codegen/std_str.rs`): context fields, `evm::` intrinsics
  and standard-library calls.
-/
import Mathlib.Data.List.Basic

namespace CambrianLang.Solidity

/-- `sol_msg_field`. -/
def solMsgField : String → Option String
  | "sender" => some "msg.sender"
  | "value" => some "msg.value"
  | "timestamp" | "createdAt" => some "block.timestamp"
  | "logicaltime" => some "block.number"
  | "int" => some "false"
  | "ext" => some "true"
  | _ => none

/-- `sol_sys_field`. -/
def solSysField : String → Option String
  | "timestamp" | "now" => some "block.timestamp"
  | "block_number" | "logicaltime" => some "block.number"
  | "prevrandao" | "rnd_seed" => some "uint256(block.prevrandao)"
  | "address" => some "address(this)"
  | "balance" => some "address(this).balance"
  | "coinbase" => some "block.coinbase"
  | "chainid" => some "block.chainid"
  | "basefee" => some "block.basefee"
  | "gas_left" => some "gasleft()"
  | "blobbasefee" => some "block.blobbasefee"
  | "origin" => some "tx.origin"
  | "gasprice" => some "tx.gasprice"
  | _ => none

/-- `evm_ns_call_supported`. -/
def evmNsCallSupported (name : String) (arity : Nat) : Bool :=
  match name with
  | "ecrecover" => arity == 4
  | "keccak256Packed" | "sha256" | "ripemd160" => decide (1 ≤ arity)
  | "keccak256" | "balance" | "blockhash" => arity == 1
  | _ => false

/-- `ParseStrMeta`: signedness and width of a `std::str::parse_*` call. -/
structure ParseStrMeta where
  signed : Bool
  bits : Nat
deriving DecidableEq

/-- `parse_str_meta`. -/
def parseStrMeta : String → Option ParseStrMeta
  | "parse_uint" => some ⟨false, 64⟩
  | "parse_int" => some ⟨true, 64⟩
  | "parse_u8" => some ⟨false, 8⟩
  | "parse_u16" => some ⟨false, 16⟩
  | "parse_u32" => some ⟨false, 32⟩
  | "parse_u64" => some ⟨false, 64⟩
  | "parse_u128" => some ⟨false, 128⟩
  | "parse_U256" => some ⟨false, 256⟩
  | "parse_i8" => some ⟨true, 8⟩
  | "parse_i16" => some ⟨true, 16⟩
  | "parse_i32" => some ⟨true, 32⟩
  | "parse_i64" => some ⟨true, 64⟩
  | "parse_i128" => some ⟨true, 128⟩
  | _ => none

/-- `is_std_namespace`. -/
def isStdNamespace (ns : String) : Bool := "std::".toList.isPrefixOf ns.toList

/-- `is_supported_std_call`. -/
def isSupportedStdCall (ns name : String) : Bool :=
  match ns with
  | "std::math" =>
      ["min", "max", "abs", "clamp", "muldiv", "muldivmod", "divmod", "divc", "divr", "sign",
        "minmax", "modpow2", "pow"].contains name
  | "std::str" => (parseStrMeta name).isSome || name == "format"
  | "std::crypto" => name == "sha256"
  | _ => false

end CambrianLang.Solidity
