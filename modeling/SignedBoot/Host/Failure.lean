import SignedBoot.IntelHex.Reader
import SignedBoot.Key.Pem
import SignedBoot.Layout

/-!
# What can go wrong on the host

One type for every way in which preparing an image, reading a key or talking to the device fails,
with its wording.
-/

namespace SignedBoot.Host

/-- Kinds of input and output failures. -/
inductive IoKind where
  | brokenPipe
  | connectionReset
  | notFound
  | permissionDenied
  | timedOut
  | unexpectedEof
  | invalidData
  | writeZero
  | other
  deriving DecidableEq, Repr

def IoKind.message : IoKind → String
  | brokenPipe => "broken pipe"
  | connectionReset => "connection reset"
  | notFound => "entity not found"
  | permissionDenied => "permission denied"
  | timedOut => "timed out"
  | unexpectedEof => "unexpected end of file"
  | invalidData => "invalid data"
  | writeZero => "write zero"
  | other => "other error"

/-- Why a file could not be read, or the line could not be used. -/
inductive IoFailure where
  | kind (k : IoKind)
  | noSuchFile
  | isDirectory
  /-- Part of the path is a file and not a directory. -/
  | notADirectory
  /-- Part of the path, or all of it, is longer than names can be. -/
  | nameTooLong
  /-- The path has a zero character, which no name can have. -/
  | zeroInName
  /-- A text was wanted, and the file is not UTF-8. -/
  | notText
  deriving DecidableEq, Repr

def IoFailure.message : IoFailure → String
  | kind k => k.message
  | noSuchFile => "No such file or directory (os error 2)"
  | isDirectory => "Is a directory (os error 21)"
  | notADirectory => "Not a directory (os error 20)"
  | nameTooLong => "File name too long (os error 36)"
  | zeroInName => "file name contained an unexpected NUL byte"
  | notText => "stream did not contain valid UTF-8"

/-- Why the host gave up. -/
inductive Failure where
  | deniedAddress
  /-- The device never answered the handshake. -/
  | handshakeFailed
  /-- The image has data where its second word would be. -/
  | imageErasedWordProgrammed
  | imageEmpty
  /-- The image reaches into the signature record. -/
  | imageTooLarge (size : Nat)
  /-- The device refused a payload, or a request does not fit a frame. -/
  | invalidPayload
  /-- The key file holds something else. -/
  | invalidPemTag (tag : String)
  /-- The number in the key file is no key. -/
  | invalidSecretKey
  | link (e : IoFailure)
  | noAck
  | openLine (why : String)
  /-- The contents of the key file are no key. -/
  | parseDerContent
  /-- The image file is not Intel HEX. -/
  | parseHex (e : IntelHex.ReadError)
  /-- The key file has no usable envelope. -/
  | parsePem (e : Pem.PemError)
  | readHexFile (path : String) (e : IoFailure)
  | readPemFile (path : String) (e : IoFailure)
  deriving DecidableEq, Repr

def Failure.message : Failure → String
  | deniedAddress => "device refused a write address"
  | handshakeFailed => "device did not answer the handshake; was it reset?"
  | imageErasedWordProgrammed =>
    "image bytes 4..8 must be left erased (0xFF), the bootloader cannot program them"
  | imageEmpty => "image has no data below the signature record"
  | imageTooLarge size =>
    "image is " ++ toString size ++ " bytes, it must end below " ++
      Text.hexNumber Layout.signatureField
  | invalidPayload => "device reported an invalid payload"
  | invalidPemTag tag => "expected an EC PRIVATE KEY, found " ++ tag
  | invalidSecretKey => "invalid secp256k1 secret key: malformed or out-of-range secret key"
  | link e => "serial link error: " ++ e.message
  | noAck => "device stopped answering"
  | openLine why => "failed to open serial port: " ++ why
  | parseDerContent => "failed to parse key: malformed DER"
  | parseHex e => "failed to parse Intel HEX: " ++ e.message
  | parsePem e => "failed to parse PEM file: " ++ e.message
  | readHexFile path e => "failed to read " ++ path ++ ": " ++ e.message
  | readPemFile path e => "failed to read " ++ path ++ ": " ++ e.message

end SignedBoot.Host
