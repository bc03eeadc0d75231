import Bitcoin.Proofs.Address.Payee
import Bitcoin.Proofs.Bytes.Numeral
import Bitcoin.Proofs.Curve.FieldLaws
import Bitcoin.Proofs.Curve.Multiples
import Bitcoin.Proofs.Key.Malleability
import Bitcoin.Proofs.Key.NonceStream
import Bitcoin.Proofs.Key.SecForms
import Bitcoin.Proofs.Script.Alternatives
import Bitcoin.Proofs.Script.Arithmetic
import Bitcoin.Proofs.Script.ConditionStack
import Bitcoin.Proofs.Script.Frame
import Bitcoin.Proofs.Script.KeyHash
import Bitcoin.Proofs.Script.RunLength
import Bitcoin.Proofs.Script.Shuffle
import Bitcoin.Proofs.Transaction.Answers
import Bitcoin.Proofs.Transaction.Fee
import Bitcoin.Proofs.Transaction.LockTime
import Bitcoin.Proofs.Transaction.SignedBytes
import Bitcoin.Proofs.Transaction.SigningKeyHash
import Bitcoin.Proofs.Transaction.SigningOrder
import Bitcoin.Proofs.Transaction.StoreTransparency
import Bitcoin.Proofs.Wire.Extent
import Bitcoin.Proofs.Wire.Integer
import Bitcoin.Proofs.Wire.ScriptRoundTrip
