import Typeahead.Catalog.Basic

/-!
# Numbers and questions of the catalogue

The functions on numbers, and the functions that answer a question.
-/

namespace Typeahead.Catalog

/-- The functions on numbers. -/
def arithmeticFunctions : List Entry :=
  Group.entries .arithmetic
    [("+", "(+ & xs)", "Sum of the numbers; 0 when empty."),
     ("-", "(- & xs)", "Difference of the numbers; negation for a single argument."),
     ("*", "(* & xs)", "Product of the numbers; 1 when empty."),
     ("/", "(/ & xs)", "Quotient of the numbers; reciprocal for a single argument."),
     ("%", "(% dividend divisor)", "Remainder of a division."),
     ("**", "(** a x)", "Raise `a` to the power `x`."),
     ("=", "(= a & more)", "True when all arguments are equal."),
     ("not=", "(not= a & more)", "True when the arguments are not all equal."),
     ("<", "(< a & more)", "True when the arguments are strictly increasing."),
     ("<=", "(<= a & more)", "True when the arguments are non-decreasing."),
     (">", "(> a & more)", "True when the arguments are strictly decreasing."),
     (">=", "(>= a & more)", "True when the arguments are non-increasing."),
     ("<=>", "(<=> a b)", "Three-way comparison returning -1, 0 or 1."),
     ("compare", "(compare x y)",
      "Compare two values, returning a negative, zero or positive number."),
     ("inc", "(inc x)", "Add one to a number."),
     ("dec", "(dec x)", "Subtract one from a number."),
     ("max", "(max & numbers)", "Largest of the numbers."),
     ("min", "(min & numbers)", "Smallest of the numbers."),
     ("abs", "(abs x)", "Absolute value of a number."),
     ("mod", "(mod dividend divisor)", "Modulus of a division, with the sign of the divisor."),
     ("quot", "(quot dividend divisor)", "Integer quotient of a division."),
     ("rem", "(rem dividend divisor)", "Remainder of an integer division."),
     ("not", "(not x)", "True when the value is falsy.")]

/-- The functions that answer a question. -/
def predicates : List Entry :=
  Group.entries .predicate
    [("nil?", "(nil? x)", "True when the value is nil."),
     ("true?", "(true? x)", "True when the value is exactly true."),
     ("false?", "(false? x)", "True when the value is exactly false."),
     ("truthy?", "(truthy? x)", "True for every value except nil and false."),
     ("some?", "(some? pred coll)", "True when the predicate holds for some element."),
     ("every?", "(every? pred coll)", "True when the predicate holds for every element."),
     ("all?", "(all? pred coll)", "True when the predicate holds for all elements."),
     ("not-any?", "(not-any? pred coll)", "True when the predicate holds for no element."),
     ("not-every?", "(not-every? pred coll)", "True when the predicate fails for some element."),
     ("empty?", "(empty? x)", "True when the collection has no elements."),
     ("even?", "(even? x)", "True when the number is even."),
     ("odd?", "(odd? x)", "True when the number is odd."),
     ("pos?", "(pos? x)", "True when the number is greater than zero."),
     ("neg?", "(neg? x)", "True when the number is less than zero."),
     ("zero?", "(zero? x)", "True when the number is zero."),
     ("one?", "(one? x)", "True when the number is one."),
     ("nan?", "(nan? x)", "True when the value is not a number."),
     ("string?", "(string? x)", "True when the value is a string."),
     ("number?", "(number? x)", "True when the value is an integer or float."),
     ("int?", "(int? x)", "True when the value is an integer."),
     ("float?", "(float? x)", "True when the value is a float."),
     ("boolean?", "(boolean? x)", "True when the value is a boolean."),
     ("keyword?", "(keyword? x)", "True when the value is a keyword."),
     ("symbol?", "(symbol? x)", "True when the value is a symbol."),
     ("function?", "(function? x)", "True when the value is callable."),
     ("list?", "(list? x)", "True when the value is a list."),
     ("vector?", "(vector? x)", "True when the value is a vector."),
     ("hash-map?", "(hash-map? x)", "True when the value is a hash map."),
     ("set?", "(set? x)", "True when the value is a set."),
     ("struct?", "(struct? x)", "True when the value is a struct instance."),
     ("var?", "(var? x)", "True when the value is a variable."),
     ("indexed?", "(indexed? x)", "True when the value supports index access."),
     ("associative?", "(associative? x)", "True when the value maps keys to values."),
     ("contains?", "(contains? coll key)", "True when the collection has the key."),
     ("contains-value?", "(contains-value? coll val)", "True when the collection holds the value."),
     ("realized?", "(realized? coll)", "True when a lazy sequence has been evaluated."),
     ("php-array?", "(php-array? x)", "True when the value is a PHP array."),
     ("php-object?", "(php-object? x)", "True when the value is a PHP object."),
     ("php-resource?", "(php-resource? x)", "True when the value is a PHP resource.")]

end Typeahead.Catalog
