import StorageMarket.Record.Codec
import StorageMarket.Report

/-! The JSON forms of reports and summaries. -/

namespace StorageMarket

open Codec

instance : Codec InquiryCreated where
  toJson r := record [
    ("inquiry_id", toJson r.inquiryId), ("contract_ids", toJson r.contractIds)]
  ofJson? j := do
    match ← fields? ["inquiry_id", "contract_ids"] j with
    | [inquiry, contracts] => return ⟨← field? inquiry, ← field? contracts⟩
    | _ => none

namespace Settlement

/-- What is inside a paid settlement. -/
def ofContent? (j : Json) : Option Settlement := do
  match ← fields? ["bonus", "per_provider", "providers", "failed_transfers"] j with
  | [bonus, each, providers, failed] =>
    return .paid (← field? bonus) (← field? each) (← field? providers) (← field? failed)
  | _ => none

def ofChoice? (j : Json) : Option Settlement := do
  match ← choice? j with
  | "NothingDue" => return .nothingDue
  | "AlreadyPaid" => return .alreadyPaid
  | _ => none

end Settlement

instance : Codec Settlement where
  toJson
    | .paid bonus each providers failed => record [("Paid", record [
        ("bonus", toJson bonus), ("per_provider", toJson each),
        ("providers", toJson providers), ("failed_transfers", toJson failed)])]
    | .nothingDue => toJson "NothingDue"
    | .alreadyPaid => toJson "AlreadyPaid"
  ofJson? j :=
    match j with
    | .obj [(s, content)] =>
      if s.text? = some "Paid" then Settlement.ofContent? content
      else Settlement.ofChoice? j
    | _ => Settlement.ofChoice? j

instance : Codec PaymentPass where
  toJson r := record [
    ("height", toJson r.height), ("contracts_examined", toJson r.examined),
    ("contracts_paid", toJson r.paid), ("contracts_skipped", toJson r.skipped),
    ("transfer_failures", toJson r.failures), ("distributed", toJson r.distributed)]
  ofJson? j := do
    match ← fields? ["height", "contracts_examined", "contracts_paid", "contracts_skipped",
        "transfer_failures", "distributed"] j with
    | [height, examined, paid, skipped, failures, distributed] =>
      return ⟨← field? height, ← field? examined, ← field? paid, ← field? skipped,
        ← field? failures, ← field? distributed⟩
    | _ => none

instance : Codec SweepReport where
  toJson r := record [
    ("height", toJson r.height), ("inquiries_expired", toJson r.expired),
    ("escrows_refunded", toJson r.refunded), ("histories_pruned", toJson r.pruned),
    ("contracts_completed", toJson r.completed), ("orphans_removed", toJson r.orphans),
    ("failures", toJson r.failures)]
  ofJson? j := do
    match ← fields? ["height", "inquiries_expired", "escrows_refunded", "histories_pruned",
        "contracts_completed", "orphans_removed", "failures"] j with
    | [height, expired, refunded, pruned, completed, orphans, failures] =>
      return ⟨← field? height, ← field? expired, ← field? refunded, ← field? pruned,
        ← field? completed, ← field? orphans, ← field? failures⟩
    | _ => none

instance : Codec BlockReport where
  toJson r := record [
    ("height", toJson r.height), ("payments", toJson r.payments),
    ("sweep", toJson r.sweep)]
  ofJson? j := do
    match ← fields? ["height", "payments", "sweep"] j with
    | [height, payments, sweep] =>
      return ⟨← field? height, ← field? payments, ← field? sweep⟩
    | _ => none

instance : Codec CleanupStatus where
  toJson r := record [
    ("height", toJson r.height), ("expired_inquiries", toJson r.expiredInquiries),
    ("expired_contracts", toJson r.expiredContracts),
    ("old_payment_histories", toJson r.oldHistories),
    ("total_inquiries", toJson r.inquiries), ("total_contracts", toJson r.contracts),
    ("total_payments", toJson r.histories), ("total_escrow_records", toJson r.escrows),
    ("total_provider_stakes", toJson r.stakes)]
  ofJson? j := do
    match ← fields? ["height", "expired_inquiries", "expired_contracts",
        "old_payment_histories", "total_inquiries", "total_contracts", "total_payments",
        "total_escrow_records", "total_provider_stakes"] j with
    | [height, inquiries, contracts, old, allInquiries, allContracts, payments, escrows,
        stakes] =>
      return ⟨← field? height, ← field? inquiries, ← field? contracts, ← field? old,
        ← field? allInquiries, ← field? allContracts, ← field? payments, ← field? escrows,
        ← field? stakes⟩
    | _ => none

instance : Codec EscrowSummary where
  toJson r := record [
    ("total_records", toJson r.records), ("active_records", toJson r.active),
    ("inactive_records", toJson r.inactive), ("total_by_denom", toJson r.totals),
    ("active_by_denom", toJson r.activeTotals)]
  ofJson? j := do
    match ← fields? ["total_records", "active_records", "inactive_records",
        "total_by_denom", "active_by_denom"] j with
    | [records, active, inactive, totals, activeTotals] =>
      return ⟨← field? records, ← field? active, ← field? inactive, ← field? totals,
        ← field? activeTotals⟩
    | _ => none

instance : Codec StakeStats where
  toJson r := record [
    ("denom", toJson r.denom), ("count", toJson r.count), ("total", toJson r.total),
    ("average", toJson r.average), ("min", toJson r.least), ("max", toJson r.greatest)]
  ofJson? j := do
    match ← fields? ["denom", "count", "total", "average", "min", "max"] j with
    | [denom, count, total, average, least, greatest] =>
      return ⟨← field? denom, ← field? count, ← field? total, ← field? average,
        ← field? least, ← field? greatest⟩
    | _ => none

instance : Codec StakeHistory where
  toJson r := record [
    ("by_height", toJson r.byHeight), ("earliest_height", toJson r.earliest),
    ("latest_height", toJson r.latest)]
  ofJson? j := do
    match ← fields? ["by_height", "earliest_height", "latest_height"] j with
    | [byHeight, earliest, latest] =>
      return ⟨← field? byHeight, ← field? earliest, ← field? latest⟩
    | _ => none

instance : Codec StakingSummary where
  toJson r := record [
    ("total_providers", toJson r.providers), ("total_by_denom", toJson r.totals),
    ("providers_by_denom", toJson r.providersByDenom)]
  ofJson? j := do
    match ← fields? ["total_providers", "total_by_denom", "providers_by_denom"] j with
    | [providers, totals, byDenom] =>
      return ⟨← field? providers, ← field? totals, ← field? byDenom⟩
    | _ => none

instance : Codec Quartiles where
  toJson q := .arr [toJson q.lower, toJson q.middle, toJson q.upper]
  ofJson?
    | .arr [lower, middle, upper] =>
      return ⟨← ofJson? lower, ← ofJson? middle, ← ofJson? upper⟩
    | _ => none

instance : Codec PaymentSpread where
  toJson r := record [
    ("count", toJson r.count), ("total", toJson r.total), ("average", toJson r.average),
    ("min", toJson r.least), ("max", toJson r.greatest),
    ("percentiles", toJson r.quartiles)]
  ofJson? j := do
    match ← fields? ["count", "total", "average", "min", "max", "percentiles"] j with
    | [count, total, average, least, greatest, quartiles] =>
      return ⟨← field? count, ← field? total, ← field? average, ← field? least,
        ← field? greatest, ← field? quartiles⟩
    | _ => none

instance : Codec ProviderPayments where
  toJson r := record [
    ("provider", toJson r.provider), ("payment_count", toJson r.payments),
    ("total_earned", toJson r.earned), ("completed_contracts", toJson r.completed),
    ("pending_contracts", toJson r.pending)]
  ofJson? j := do
    match ← fields? ["provider", "payment_count", "total_earned", "completed_contracts",
        "pending_contracts"] j with
    | [provider, payments, earned, completed, pending] =>
      return ⟨← field? provider, ← field? payments, ← field? earned, ← field? completed,
        ← field? pending⟩
    | _ => none

instance : Codec TrendWindow where
  toJson r := record [
    ("start_block", toJson r.startBlock), ("end_block", toJson r.endBlock),
    ("payments", toJson r.payments), ("total", toJson r.total)]
  ofJson? j := do
    match ← fields? ["start_block", "end_block", "payments", "total"] j with
    | [start, end_, payments, total] =>
      return ⟨← field? start, ← field? end_, ← field? payments, ← field? total⟩
    | _ => none

instance : Codec PaymentTrends where
  toJson r := record [
    ("window_size", toJson r.windowSize), ("current_block", toJson r.currentBlock),
    ("windows", toJson r.windows)]
  ofJson? j := do
    match ← fields? ["window_size", "current_block", "windows"] j with
    | [size, current, windows] =>
      return ⟨← field? size, ← field? current, ← field? windows⟩
    | _ => none

instance : Codec PaymentAnalytics where
  toJson r := record [
    ("total_payment_records", toJson r.records),
    ("total_paid_by_denom", toJson r.paidByDenom),
    ("payment_count_by_denom", toJson r.countByDenom),
    ("completed_payments", toJson r.completed), ("pending_payments", toJson r.pending)]
  ofJson? j := do
    match ← fields? ["total_payment_records", "total_paid_by_denom",
        "payment_count_by_denom", "completed_payments", "pending_payments"] j with
    | [records, paid, counts, completed, pending] =>
      return ⟨← field? records, ← field? paid, ← field? counts, ← field? completed,
        ← field? pending⟩
    | _ => none

instance : Codec ContractDetails where
  toJson r := record [
    ("contract", toJson r.contract), ("inquiry", toJson r.inquiry),
    ("offer", toJson r.offer), ("payment_history", toJson r.history),
    ("escrow", toJson r.escrow), ("status", toJson r.status)]
  ofJson? j := do
    match ← fields? ["contract", "inquiry", "offer", "payment_history", "escrow",
        "status"] j with
    | [contract, inquiry, offer, history, escrow, status] =>
      return ⟨← field? contract, ← field? inquiry, ← field? offer, ← field? history,
        ← field? escrow, ← field? status⟩
    | _ => none

instance : Codec ProviderPerformance where
  toJson r := record [
    ("provider", toJson r.provider), ("stake", toJson r.stake),
    ("total_contracts", toJson r.contracts), ("active_contracts", toJson r.active),
    ("completed_contracts", toJson r.completed), ("total_earnings", toJson r.earnings),
    ("total_offers", toJson r.offers)]
  ofJson? j := do
    match ← fields? ["provider", "stake", "total_contracts", "active_contracts",
        "completed_contracts", "total_earnings", "total_offers"] j with
    | [provider, stake, contracts, active, completed, earnings, offers] =>
      return ⟨← field? provider, ← field? stake, ← field? contracts, ← field? active,
        ← field? completed, ← field? earnings, ← field? offers⟩
    | _ => none

instance : Codec SystemStatistics where
  toJson r := record [
    ("height", toJson r.height), ("total_file_entries", toJson r.files),
    ("total_inquiries", toJson r.inquiries), ("total_offers", toJson r.offers),
    ("total_contracts", toJson r.contracts),
    ("total_payment_histories", toJson r.histories),
    ("total_providers", toJson r.providers), ("total_escrow_records", toJson r.escrows),
    ("active_contracts", toJson r.active), ("expired_contracts", toJson r.expired),
    ("total_value_locked", toJson r.valueLocked)]
  ofJson? j := do
    match ← fields? ["height", "total_file_entries", "total_inquiries", "total_offers",
        "total_contracts", "total_payment_histories", "total_providers",
        "total_escrow_records", "active_contracts", "expired_contracts",
        "total_value_locked"] j with
    | [height, files, inquiries, offers, contracts, histories, providers, escrows, active,
        expired, locked] =>
      return ⟨← field? height, ← field? files, ← field? inquiries, ← field? offers,
        ← field? contracts, ← field? histories, ← field? providers, ← field? escrows,
        ← field? active, ← field? expired, ← field? locked⟩
    | _ => none

end StorageMarket
