import Typeahead.Catalog.Basic

/-!
# Collections of the catalogue

The functions on lists, vectors, maps and sets.
-/

namespace Typeahead.Catalog

/-- The functions on collections. -/
def collectionFunctions : List Entry :=
  Group.entries .collection
    [("map", "(map f & colls)", "Apply a function to every element, lazily."),
     ("filter", "(filter pred coll)", "Elements for which the predicate holds, lazily."),
     ("remove", "(remove pred coll)", "Elements for which the predicate fails, lazily."),
     ("reduce", "(reduce f & args)", "Fold a collection with a two-argument function."),
     ("first", "(first coll)", "First element, or nil."),
     ("second", "(second coll)", "Second element, or nil."),
     ("rest", "(rest coll)", "Everything after the first element."),
     ("next", "(next coll)", "Everything after the first element, or nil when empty."),
     ("last", "(last coll)", "Last element, or nil."),
     ("butlast", "(butlast coll)", "Everything but the last element."),
     ("cons", "(cons x coll)", "Prepend an element."),
     ("conj", "(conj coll x)", "Add an element where the collection adds most cheaply."),
     ("take", "(take n coll)", "The first `n` elements."),
     ("take-while", "(take-while pred coll)", "Leading elements while the predicate holds."),
     ("take-last", "(take-last n coll)", "The last `n` elements."),
     ("take-nth", "(take-nth n coll)", "Every `n`th element."),
     ("drop", "(drop n coll)", "All but the first `n` elements."),
     ("drop-while", "(drop-while pred coll)",
      "Elements after the leading run the predicate holds for."),
     ("drop-last", "(drop-last n coll)", "All but the last `n` elements."),
     ("concat", "(concat & colls)", "Join collections end to end."),
     ("into", "(into to & rest)", "Add all elements of a collection to another."),
     ("reverse", "(reverse coll)", "Elements in reverse order."),
     ("sort", "(sort coll & [comp])", "Elements in sorted order."),
     ("sort-by", "(sort-by keyfn coll & [comp])", "Elements sorted by a key function."),
     ("group-by", "(group-by f coll)", "Map from key-function result to matching elements."),
     ("partition", "(partition n coll)", "Split into chunks of `n`, dropping a short tail."),
     ("partition-all", "(partition-all n coll)", "Split into chunks of `n`, keeping a short tail."),
     ("partition-by", "(partition-by f coll)", "Split whenever the function's result changes."),
     ("frequencies", "(frequencies coll)", "Map from element to occurrence count."),
     ("distinct", "(distinct coll)", "Elements with duplicates removed."),
     ("dedupe", "(dedupe coll)", "Elements with consecutive duplicates removed."),
     ("flatten", "(flatten coll)", "Nested sequential collections as one flat sequence."),
     ("interleave", "(interleave & colls)",
      "First of each collection, then second of each, and so on."),
     ("interpose", "(interpose sep coll)", "Elements separated by `sep`."),
     ("mapcat", "(mapcat f & colls)", "Map, then concatenate the results."),
     ("map-indexed", "(map-indexed f coll)", "Map with the element index as first argument."),
     ("keep", "(keep pred coll)", "Non-nil results of applying the function."),
     ("keep-indexed", "(keep-indexed pred coll)",
      "Non-nil results of applying the function with the index."),
     ("find", "(find pred coll)", "First element the predicate holds for."),
     ("find-index", "(find-index pred coll)",
      "Index of the first element the predicate holds for."),
     ("some", "(some pred coll)", "First truthy result of the predicate."),
     ("count", "(count coll)", "Number of elements."),
     ("get", "(get ds k & [opt])", "Value at a key or index, or a default."),
     ("get-in", "(get-in ds ks & [opt])", "Value at a key path, or a default."),
     ("assoc", "(assoc ds key value)", "Collection with a key set to a value."),
     ("assoc-in", "(assoc-in ds [k & ks] v)", "Collection with a nested key path set to a value."),
     ("dissoc", "(dissoc ds key)", "Collection without a key."),
     ("dissoc-in", "(dissoc-in ds [k & ks])", "Collection without a nested key."),
     ("update", "(update ds k f & args)", "Collection with the value at a key transformed."),
     ("update-in", "(update-in ds [k & ks] f & args)",
      "Collection with a nested value transformed."),
     ("put", "(put ds key value)", "Collection with a key set to a value."),
     ("put-in", "(put-in ds ks v)", "Collection with a nested key path set to a value."),
     ("unset", "(unset ds key)", "Collection without a key."),
     ("unset-in", "(unset-in ds ks)", "Collection without a nested key."),
     ("keys", "(keys coll)", "Keys of an associative collection."),
     ("values", "(values coll)", "Values of an associative collection."),
     ("pairs", "(pairs coll)", "Key/value pairs of an associative collection."),
     ("kvs", "(kvs coll)", "Keys and values interleaved in one vector."),
     ("select-keys", "(select-keys m ks)", "Map restricted to the given keys."),
     ("merge", "(merge & maps)", "Merge maps; later keys win."),
     ("merge-with", "(merge-with f & hash-maps)",
      "Merge maps, combining clashing values with a function."),
     ("deep-merge", "(deep-merge & args)", "Recursively merge nested maps."),
     ("invert", "(invert map)", "Map with keys and values swapped."),
     ("zipmap", "(zipmap keys vals)", "Map from paired keys and values."),
     ("zipcoll", "(zipcoll a b)", "Map from paired keys and values."),
     ("split-at", "(split-at n coll)", "Pair of the first `n` elements and the rest."),
     ("split-with", "(split-with f coll)",
      "Pair of the leading run the predicate holds for and the rest."),
     ("shuffle", "(shuffle coll)", "Elements in random order."),
     ("slice", "(slice coll & [offset & [length]])", "Part of an indexed collection."),
     ("peek", "(peek coll)", "Last element of a vector."),
     ("pop", "(pop coll)", "Vector without its last element."),
     ("push", "(push coll x)", "Vector with an element appended."),
     ("range", "(range a & rest)", "Lazy sequence of numbers."),
     ("repeat", "(repeat a & rest)", "Sequence repeating a value."),
     ("repeatedly", "(repeatedly a & rest)",
      "Sequence of results of calling a function repeatedly."),
     ("iterate", "(iterate f x)", "Lazy sequence of `x`, `(f x)`, `(f (f x))`, ..."),
     ("cycle", "(cycle coll)", "Lazy infinite repetition of a collection."),
     ("union", "(union & sets)", "Union of sets."),
     ("intersection", "(intersection set & sets)", "Intersection of sets."),
     ("difference", "(difference set & sets)", "First set without the elements of the others."),
     ("symmetric-difference", "(symmetric-difference set & sets)",
      "Elements in exactly one of the sets."),
     ("doall", "(doall coll)", "Realize a lazy sequence and return it."),
     ("dorun", "(dorun coll)", "Realize a lazy sequence for side effects, returning nil."),
     ("lazy-seq", "(lazy-seq & body)", "Sequence whose body is evaluated on first access."),
     ("tree-seq", "(tree-seq branch? children root)", "Depth-first walk of a tree as a sequence.")]

end Typeahead.Catalog
