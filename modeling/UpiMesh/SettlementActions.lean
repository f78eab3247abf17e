import UpiMesh.Lib.Protocol
import UpiMesh.Settlement

/-!
# The actions of a settlement

Whatever happens between its actions, a `settle` call performs reads, write blocks of accounts that
it has read and found covered, and inserts of its rejected row.
-/

namespace UpiMesh

open Concurrent

/-- The credit addition of a write block stays below `2 ^ 63`. -/
def Action.CreditFits : Action → Prop
  | .settleBlock _ receiver call _ _ => receiver.balance + call.instruction.amount < 2 ^ 63
  | _ => True

instance : DecidablePred Action.CreditFits
  | .settleBlock .. => inferInstanceAs (Decidable (_ < _))
  | .hold .. | .holds .. | .packetCount .. | .getHeldPackets .. | .clearDevice .. => isTrue trivial
  | .claim .. | .evictExpired .. | .clearSeen | .findById .. | .saveTransaction .. => isTrue trivial
  | .resetDatabase _ => isTrue trivial

namespace SettlementService

/-- The actions of a call whose reads return accounts with the property `P`. -/
inductive Performs (P : Account → Prop) (call : SettleCall) (env : SettleEnv) : Action → Prop
  | findById {vpa : String} {fault : Option StatementFault} :
      Performs P call env (.findById vpa fault)
  | settleBlock {sender receiver : Account} {n : ℕ} (hs : P sender) (hr : P receiver)
      (hpos : 0 < call.instruction.amount) (hcov : call.instruction.amount ≤ sender.balance) :
      Performs P call env (.settleBlock sender receiver call (env.settledAt n) (env.faults n))
  | saveTransaction {n : ℕ} :
      Performs P call env
        (.saveTransaction (call.transaction (env.settledAt n) .REJECTED) (env.faults n).insert)

/-- A read returns accounts with the property `P`. -/
def Reads (P : Account → Prop) : (a : Action) → a.Response → Prop
  | .findById _ _, r => ∀ account, r = some account → P account
  | _, _ => True

def protocol (P : Account → Prop) (call : SettleCall) (env : SettleEnv) :
    Protocol Action Action.Response Unit := .stateless (Performs P call env) (Reads P)

variable {P : Account → Prop} {call : SettleCall} {env : SettleEnv} {g : Unit}

theorem afterReads_follows {sender receiver : Account} {n : ℕ} (hs : P sender) (hr : P receiver) :
    (afterReads call (env.settledAt n) (env.faults n) sender receiver).Follows
      (protocol P call env) (fun _ _ => True) g := by
  unfold afterReads
  dsimp only
  split_ifs with hnonpos hshort
  · exact trivial
  · refine ⟨.saveTransaction, fun r _ => ?_⟩
    cases r with
    | ok tx => exact trivial
    | error e => exact trivial
  · refine ⟨.settleBlock hs hr (not_le.mp hnonpos) (not_lt.mp hshort), fun r _ => ?_⟩
    exact trivial

theorem attempt_follows {n : ℕ} :
    (attempt call (env.settledAt n) (env.faults n)).Follows (protocol P call env)
      (fun _ _ => True) g := by
  refine ⟨.findById, fun sender hsender => ?_⟩
  cases sender with
  | none => exact trivial
  | some sender =>
    refine ⟨.findById, fun receiver hreceiver => ?_⟩
    cases receiver with
    | none => exact trivial
    | some receiver => exact afterReads_follows (hsender sender rfl) (hreceiver receiver rfl)

theorem attempts_follows {n remaining : ℕ} :
    (attempts call env n remaining).Follows (protocol P call env) (fun _ _ => True) g := by
  induction remaining generalizing n g with
  | zero => exact trivial
  | succ remaining ih =>
    refine attempt_follows.bind fun g r _ => ?_
    cases r with
    | returned tx => exact trivial
    | thrown e => exact trivial
    | failed e =>
      dsimp only
      split_ifs
      · exact trivial
      · exact ih

theorem settle_follows (P : Account → Prop) (call : SettleCall) (env : SettleEnv) :
    (settle call env).Follows (protocol P call env) (fun _ _ => True) () := attempts_follows

theorem reads_true (a : Action) (r : a.Response) : Reads (fun _ => True) a r := by
  cases a with
  | findById vpa fault => exact fun _ _ => trivial
  | _ => exact trivial

theorem settle_uses {T : Action → Prop} (hT : ∀ a, Performs (fun _ => True) call env a → T a) :
    (settle call env).Uses T :=
  (settle_follows (fun _ => True) call env).uses reads_true fun _ => hT

end SettlementService
end UpiMesh
