/-!
The globals that every script may use without a declaration.
-/

namespace Condense

def predefinedGlobals : List String :=
  ["Array", "ArrayBuffer", "BigInt", "Boolean", "DataView", "Date", "Error", "EvalError",
    "Float32Array", "Float64Array", "Function", "Infinity", "Int16Array", "Int32Array", "Int8Array",
    "Intl", "JSON", "Map", "Math", "NaN", "Number", "Object", "Promise", "Proxy", "RangeError",
    "ReferenceError", "Reflect", "RegExp", "Set", "String", "Symbol", "SyntaxError", "TypeError",
    "URIError", "Uint16Array", "Uint32Array", "Uint8Array", "Uint8ClampedArray", "WeakMap", "WeakSet",
    "ActiveXObject", "XMLHttpRequest", "alert", "clearInterval", "clearTimeout", "confirm", "console",
    "decodeURI", "decodeURIComponent", "document", "encodeURI", "encodeURIComponent", "escape",
    "eval", "event", "frames", "globalThis", "history", "isFinite", "isNaN", "localStorage",
    "location", "navigator", "parent", "parseFloat", "parseInt", "prompt", "screen", "self",
    "sessionStorage", "setInterval", "setTimeout", "top", "undefined", "unescape", "window"]

def isPredefinedGlobal (name : String) : Bool :=
  predefinedGlobals.contains name

end Condense
