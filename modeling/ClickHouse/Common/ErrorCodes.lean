/-! The exception codes raised by the modelled functions (`ErrorCodes.cpp`). An exception is
modelled by its code alone: no modelled caller reads the message text. -/

namespace ClickHouse.Common

inductive ErrorCode
  | logicalError
  | cannotCompress
  | cannotDecompress
  | corruptedData
  | cannotWriteAfterEndOfBuffer
  | attemptToReadAfterEof
  | incorrectData
  | unknownCodec
  | badDataPartName
  | cannotPrintFloatOrDoubleNumber
  | cannotParseQuotedString
  | cannotParseEscapeSequence
  | cannotReadAllData
  | badArguments
  deriving DecidableEq, Repr

end ClickHouse.Common
