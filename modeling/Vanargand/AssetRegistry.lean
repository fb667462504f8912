import Vanargand.Name

/-!
# Local assets

The registry owns issuance: who may mint, whether they may mint again, and the recorded
supply. It never touches a balance. A ticker names the one asset created under it, and
no record is ever removed.
-/

namespace Vanargand
open Fallible

@[ext] structure AssetRecord where
  issuer : AccountId
  ticker : Name
  decimals : Byte
  reissuable : Bool
  supply : Amount
  deriving DecidableEq

namespace AssetRecord

def encode (r : AssetRecord) : Bytes :=
  r.issuer.encode ++ r.ticker.encode ++ writeVarint r.decimals.toU64 ++
    writeBool r.reissuable ++ r.supply.encode

def decode : Decoder AssetRecord := do
  let issuer ← Id.decode
  let ticker ← Name.decode
  let decimals ← readVarintU8
  let reissuable ← readBool
  let supply ← Amount.decode
  pure ⟨issuer, ticker, decimals, reissuable, supply⟩

theorem decode_ok_iff {left : ℕ} {input rest : Bytes} {x : AssetRecord} :
    decode left input = .ok (x, rest) ↔ input = x.encode ++ rest := by
  rcases x with ⟨_, _, _, _ | _, _⟩ <;>
    simp [decode, encode, Reader.bind_ok_iff, Id.decode_ok_iff, Name.decode_ok_iff,
      readVarintU8_ok_iff, readBool_ok_iff, Amount.decode_ok_iff, Reader.pure_ok_iff]

instance : Encode AssetRecord := ⟨encode⟩
instance : Decode AssetRecord := ⟨decode⟩
instance : Extent AssetRecord := {}
instance : LawfulCodec AssetRecord := ⟨exact_of_flat decode_ok_iff, fun _ =>
  List.append_ne_nil_of_right_ne_nil _ (writeVarint_ne_nil _)⟩

def valueHash [Primitives] (r : AssetRecord) : Hash := hash .stateValue (toCanonicalBytes r)

end AssetRecord

inductive AssetError where
  | noSuchAsset (id : AssetId)
  | tickerTaken (ticker : Name) (heldBy : AssetId)
  | assetExists (id : AssetId)
  | notTheIssuer (caller issuer : AccountId)
  | notReissuable (id : AssetId)
  | zeroAmount
  | supplyUnderflow (amount supply : Amount)
  | overflow
  deriving DecidableEq

@[ext] structure AssetRegistry where
  assets : SortedMap AssetId AssetRecord
  tickers : SortedMap Name AssetId
  deriving DecidableEq

namespace AssetRegistry

instance : Inhabited AssetRegistry := ⟨⟨.empty, .empty⟩⟩

def get (r : AssetRegistry) (id : AssetId) : Option AssetRecord := r.assets.get? id

def byTicker (r : AssetRegistry) (ticker : Name) : Option AssetId := r.tickers.get? ticker

def create (r : AssetRegistry) (id : AssetId) (issuer : AccountId) (ticker : Name)
    (decimals : Byte) (reissuable : Bool) : Except AssetError AssetRegistry := do
  refuseIf (r.assets.contains id) (.assetExists id)
  refuseSome (r.byTicker ticker) (.tickerTaken ticker)
  pure { tickers := r.tickers.insert ticker id
         assets := r.assets.insert id ⟨issuer, ticker, decimals, reissuable, .zero⟩ }

def authoriseMint (r : AssetRegistry) (id : AssetId) (caller : AccountId) (amount : Amount) :
    Except AssetError AssetRegistry := do
  refuseIf (amount.isZero) .zeroAmount
  let record ← okOr (r.assets.get? id) (.noSuchAsset id)
  refuseIf (record.issuer ≠ caller) (.notTheIssuer caller record.issuer)
  refuseIf (¬record.reissuable ∧ ¬record.supply.isZero) (.notReissuable id)
  let supply ← okOr (record.supply.checkedAdd amount) .overflow
  pure { r with assets := r.assets.insert id { record with supply } }

def recordBurn (r : AssetRegistry) (id : AssetId) (amount : Amount) :
    Except AssetError AssetRegistry := do
  refuseIf (amount.isZero) .zeroAmount
  let record ← okOr (r.assets.get? id) (.noSuchAsset id)
  let supply ← okOr (record.supply.checkedSub amount) (.supplyUnderflow amount record.supply)
  pure { r with assets := r.assets.insert id { record with supply } }

theorem create_ok_iff {r r' : AssetRegistry} {id : AssetId} {issuer : AccountId} {ticker : Name}
    {decimals : Byte} {reissuable : Bool} :
    r.create id issuer ticker decimals reissuable = .ok r' ↔
      r.assets.get? id = none ∧ r.tickers.get? ticker = none ∧
        r' = { tickers := r.tickers.insert ticker id
               assets := r.assets.insert id ⟨issuer, ticker, decimals, reissuable, .zero⟩ } := by
  simp only [create, bind_ok_iff, refuseIf_ok_iff, refuseSome_ok_iff, pure_ok_iff, exists_const,
    byTicker, SortedMap.not_contains_iff]

theorem authoriseMint_ok_iff {r r' : AssetRegistry} {id : AssetId} {caller : AccountId}
    {amount : Amount} : r.authoriseMint id caller amount = .ok r' ↔
      amount.ulf ≠ 0 ∧ ∃ record supply, r.assets.get? id = some record ∧
        record.issuer = caller ∧ (record.reissuable = true ∨ record.supply.ulf = 0) ∧
        supply.ulf = record.supply.ulf + amount.ulf ∧
        r' = { r with assets := r.assets.insert id { record with supply } } := by
  simp only [authoriseMint, bind_ok_iff, refuseIf_ok_iff, okOr_ok_iff, pure_ok_iff, exists_const,
    Amount.isZero_iff, Amount.checkedAdd_some_iff]
  constructor
  · rintro ⟨hzero, record, hrecord, hissuer, hopen, supply, hsupply, rfl⟩
    exact ⟨hzero, record, supply, hrecord, not_not.mp hissuer, by tauto, hsupply, rfl⟩
  · rintro ⟨hzero, record, supply, hrecord, hissuer, hopen, hsupply, rfl⟩
    exact ⟨hzero, record, hrecord, not_not.mpr hissuer, by tauto, supply, hsupply, rfl⟩

theorem recordBurn_ok_iff {r r' : AssetRegistry} {id : AssetId} {amount : Amount} :
    r.recordBurn id amount = .ok r' ↔
      amount.ulf ≠ 0 ∧ ∃ record supply, r.assets.get? id = some record ∧
        supply.ulf + amount.ulf = record.supply.ulf ∧
        r' = { r with assets := r.assets.insert id { record with supply } } := by
  simp only [recordBurn, bind_ok_iff, refuseIf_ok_iff, okOr_ok_iff, pure_ok_iff, exists_const,
    Amount.isZero_iff, Amount.checkedSub_some_iff]
  constructor
  · rintro ⟨hzero, record, hrecord, supply, hsupply, rfl⟩
    exact ⟨hzero, record, supply, hrecord, hsupply, rfl⟩
  · rintro ⟨hzero, record, supply, hrecord, hsupply, rfl⟩
    exact ⟨hzero, record, hrecord, supply, hsupply, rfl⟩

end AssetRegistry

end Vanargand
