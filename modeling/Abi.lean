import Abi.Basic
import Abi.Type
import Abi.Decode
import Abi.Decode.Static
import Abi.Decimal
import Abi.Decode.ArrayTuple
import Abi.Method
import Abi.Overload
import Abi.Unmarshal
import Abi.Clone
import Abi.Decode.Panic
import Abi.Decode.Append
import Abi.Decode.Keys
import Abi.Id
import Abi.Log
import Abi.Encode
import Abi.Canonical
import Abi.RoundTrip
import Abi.Program
