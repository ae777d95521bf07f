import Typeahead.Catalog.Basic

/-!
# Libraries of the catalogue

The functions of the libraries, which are written with the alias of their
namespace, and the forms that reach into PHP.
-/

namespace Typeahead.Catalog

/-- The functions on strings. -/
def stringFunctions : List Entry :=
  Group.entries .string
    [("str/blank?", "(str/blank? s)", "True when the string is empty or whitespace."),
     ("str/capitalize", "(str/capitalize s)", "First character upper-cased, the rest lower-cased."),
     ("str/contains?", "(str/contains? s substr)", "True when the string contains `substr`."),
     ("str/ends-with?", "(str/ends-with? s substr)", "True when the string ends with `substr`."),
     ("str/starts-with?", "(str/starts-with? s substr)",
      "True when the string starts with `substr`."),
     ("str/escape", "(str/escape s cmap)", "Replace characters using a mapping."),
     ("str/index-of", "(str/index-of s value & [from-index])",
      "Position of the first occurrence of `value`."),
     ("str/last-index-of", "(str/last-index-of s value & [from-index])",
      "Position of the last occurrence of `value`."),
     ("str/join", "(str/join separator & [coll])", "Join the elements with a separator."),
     ("str/lower-case", "(str/lower-case s)", "String in lower case."),
     ("str/upper-case", "(str/upper-case s)", "String in upper case."),
     ("str/pad-left", "(str/pad-left s len & [pad-str])",
      "Pad the start of the string to a length."),
     ("str/pad-right", "(str/pad-right s len & [pad-str])",
      "Pad the end of the string to a length."),
     ("str/pad-both", "(str/pad-both s len & [pad-str])",
      "Pad both ends of the string to a length."),
     ("str/repeat", "(str/repeat s n)", "String repeated `n` times."),
     ("str/replace", "(str/replace s match replacement)", "Replace every occurrence of `match`."),
     ("str/replace-first", "(str/replace-first s match replacement)",
      "Replace the first occurrence of `match`."),
     ("str/reverse", "(str/reverse s)", "Characters in reverse order."),
     ("str/split", "(str/split s re & [limit])", "Split on a regular expression."),
     ("str/split-lines", "(str/split-lines s)", "Split into lines."),
     ("str/subs", "(str/subs s start & [end])", "Substring between two positions."),
     ("str/trim", "(str/trim s)", "Remove whitespace from both ends."),
     ("str/triml", "(str/triml s)", "Remove whitespace from the start."),
     ("str/trimr", "(str/trimr s)", "Remove whitespace from the end."),
     ("str/trim-newline", "(str/trim-newline s)", "Remove trailing newlines.")]

/-- The functions that read and write JSON. -/
def jsonFunctions : List Entry :=
  Group.entries .json
    [("json/encode", "(json/encode value & [opts])", "Encode a value as a JSON string."),
     ("json/decode", "(json/decode json & [opts])", "Decode a JSON string.")]

/-- The functions that read and write Base64. -/
def base64Functions : List Entry :=
  Group.entries .base64
    [("base64/encode", "(base64/encode s)", "Encode a string as Base64."),
     ("base64/decode", "(base64/decode s & [strict?])", "Decode a Base64 string.")]

/-- The functions that write HTML. -/
def htmlFunctions : List Entry :=
  Group.entries .html
    [("html/html", "(html/html & content)", "Render data as an HTML string."),
     ("html/doctype", "(html/doctype type)", "HTML doctype declaration.")]

/-- The functions on HTTP requests and responses. -/
def httpFunctions : List Entry :=
  Group.entries .http
    [("http/request",
      "(http/request method uri headers parsed-body query-params cookie-params " ++
        "server-params uploaded-files version attributes)",
      "Create an HTTP request."),
     ("http/request-from-globals", "(http/request-from-globals)",
      "Request built from the PHP superglobals."),
     ("http/request-from-map", "(http/request-from-map m)", "Request built from a map."),
     ("http/response", "(http/response status headers body version reason)",
      "Create an HTTP response."),
     ("http/response-from-map", "(http/response-from-map m)", "Response built from a map."),
     ("http/response-from-string", "(http/response-from-string s)", "Response with a string body."),
     ("http/emit-response", "(http/emit-response response)", "Send a response to the client."),
     ("http/uri", "(http/uri scheme userinfo host port path query fragment)", "Create a URI."),
     ("http/uri-from-string", "(http/uri-from-string url)", "Parse a URI from a string."),
     ("http/request?", "(http/request? x)", "True when the value is a request."),
     ("http/response?", "(http/response? x)", "True when the value is a response.")]

/-- The functions of the test library. -/
def testFunctions : List Entry :=
  Group.entries .test
    [("test/deftest", "(test/deftest test-name & body)", "Define a test."),
     ("test/is", "(test/is form & [message])", "Assert inside a test."),
     ("test/run-tests", "(test/run-tests options & namespaces)",
      "Run the tests of the namespaces."),
     ("test/print-summary", "(test/print-summary)", "Print the results of the last run."),
     ("test/report", "(test/report data)", "Record a test result."),
     ("test/successful?", "(test/successful?)", "True when the last run had no failures.")]

/-- The functions that trace a program. -/
def debugFunctions : List Entry :=
  Group.entries .debug
    [("debug/dbg", "(debug/dbg expr)", "Print an expression with its value and return the value."),
     ("debug/spy", "(debug/spy expr)", "Print a value and return it."),
     ("debug/tap", "(debug/tap value)", "Pass a value to the tap handlers and return it."),
     ("debug/dotrace", "(debug/dotrace name f)", "Wrap a function so its calls are traced.")]

/-- The functions of the interactive prompt. -/
def replFunctions : List Entry :=
  Group.entries .repl
    [("repl/doc", "(repl/doc sym)", "Print the documentation of a symbol."),
     ("repl/require", "(repl/require sym & args)", "Require a namespace in the REPL."),
     ("repl/use", "(repl/use sym & args)", "Import a PHP class in the REPL."),
     ("repl/resolve", "(repl/resolve sym)", "Resolve a symbol to its definition."),
     ("repl/compile-str", "(repl/compile-str s)", "Compile a string of Phel code."),
     ("repl/loaded-namespaces", "(repl/loaded-namespaces)", "Namespaces loaded in the REPL.")]

/-- The forms that reach into PHP. -/
def phpForms : List Entry :=
  Group.entries .phpInterop
    [("php/new", "(php/new expr args*)", "Instantiate a PHP class."),
     ("php/->", "(php/-> object call*)", "Call a method or read a property of a PHP object."),
     ("php/::", "(php/:: class call*)", "Call a static method or read a static property."),
     ("php/aget", "(php/aget arr index)", "Read an element of a PHP array."),
     ("php/aget-in", "(php/aget-in arr ks)", "Read a nested element of a PHP array."),
     ("php/aset", "(php/aset arr index value)", "Set an element of a PHP array."),
     ("php/aset-in", "(php/aset-in arr ks value)", "Set a nested element of a PHP array."),
     ("php/apush", "(php/apush arr value)", "Append to a PHP array."),
     ("php/apush-in", "(php/apush-in arr ks value)", "Append to a nested PHP array."),
     ("php/aunset", "(php/aunset arr index)", "Remove an element of a PHP array."),
     ("php/aunset-in", "(php/aunset-in arr ks)", "Remove a nested element of a PHP array."),
     ("php/oset", "(php/oset (php/-> object prop) val)", "Set a property of a PHP object.")]

end Typeahead.Catalog
