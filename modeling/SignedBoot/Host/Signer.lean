import SignedBoot.Host.Failure
import SignedBoot.Key.Der
import SignedBoot.Curve.Ecdsa

/-!
# Signing keys

The host signs with a key read from a PEM file. Its public half is shown in two forms: plain
hexadecimal, and the list of byte constants that goes into the loader's configuration.
-/

namespace SignedBoot.Host

/-- The tag of a key file. -/
def keyTag : String := "EC PRIVATE KEY"

/-- The key of the given 32 bytes. -/
def secretKey (bytes : Bytes) : Except Failure Curve.SecretKey :=
  match Curve.SecretKey.ofBytes? bytes with
  | some key => .ok key
  | none => .error .invalidSecretKey

/-- The key in the contents of a PEM file. -/
def secretKeyOfPem (file : Bytes) : Except Failure Curve.SecretKey := do
  match Pem.parse file with
  | .error e => throw (.parsePem e)
  | .ok envelope =>
    if envelope.tag ≠ keyTag then throw (.invalidPemTag envelope.tag)
    match Der.secret? envelope.contents with
    | none => throw .parseDerContent
    | some bytes => secretKey bytes

/-- The key in the file of the given name, from what reading that file gave. -/
def secretKeyOfPemFile (path : String) (contents : Except IoFailure Bytes) :
    Except Failure Curve.SecretKey :=
  match contents with
  | .error e => .error (.readPemFile path e)
  | .ok bytes => secretKeyOfPem bytes

/-- A public key as a list of byte constants. -/
def keyLiteral (key : Vector UInt8 33) : String :=
  let constants := key.toList.map fun b => "0x" ++ String.ofList (Bytes.upperPair b)
  "[" ++ String.intercalate ", " constants ++ "]"

end SignedBoot.Host
