/-
The exceptions that cross a function boundary of the gateway.

Only the classes that some handler tells apart are kept apart.  The subclasses
of `httpx.HTTPError` are listed one by one, because the dead-letter record keeps
the class name and the proxy distinguishes timeouts and refused connections.
-/
import AdaptiveGateway.Codec.Text

namespace AdaptiveGateway

open Codec

/-- The concrete subclasses of `httpx.HTTPError`. -/
inductive HttpError where
  | connectTimeout | readTimeout | writeTimeout | poolTimeout
  | connectError | readError | writeError | closeError
  | localProtocolError | remoteProtocolError
  | proxyError | unsupportedProtocol | decodingError | tooManyRedirects | httpStatusError
deriving DecidableEq, Repr

namespace HttpError

/-- `type(exc).__name__`. -/
def name : HttpError → Text
  | connectTimeout => "ConnectTimeout"
  | readTimeout => "ReadTimeout"
  | writeTimeout => "WriteTimeout"
  | poolTimeout => "PoolTimeout"
  | connectError => "ConnectError"
  | readError => "ReadError"
  | writeError => "WriteError"
  | closeError => "CloseError"
  | localProtocolError => "LocalProtocolError"
  | remoteProtocolError => "RemoteProtocolError"
  | proxyError => "ProxyError"
  | unsupportedProtocol => "UnsupportedProtocol"
  | decodingError => "DecodingError"
  | tooManyRedirects => "TooManyRedirects"
  | httpStatusError => "HTTPStatusError"

/-- The subclasses of `httpx.TimeoutException`. -/
def isTimeout : HttpError → Bool
  | connectTimeout | readTimeout | writeTimeout | poolTimeout => true
  | _ => false

end HttpError

inductive Exc where
  | redisError
  | dbError
  | httpError (e : HttpError)
  /-- `httpx.InvalidURL`, which is not an `httpx.HTTPError`. -/
  | invalidURL
  | bodyTooLarge
  | timeoutError
  | valueError
  | keyError
  | typeError
  | unicodeError
  | recursionError
  /-- `asyncio.CancelledError`, which `except Exception` does not catch. -/
  | cancelled
deriving DecidableEq, Repr

end AdaptiveGateway
